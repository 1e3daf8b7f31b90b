import RedisDB.Hash.Addresses
import RedisDB.Hash.Scan

/-!
# Scans interleaved with other calls

A scan starts from cursor zero and goes on from each cursor returned until zero
comes back, with other calls between the calls of `scan`.  In rank order the
cursor only moves forward, and so does every node it has not reported.
-/

namespace RedisDB

open RedisDB.Library RedisDB.Util

variable {K T : Type}

namespace Hash

/-- `scan` calls with the calls made between them: from the cursor `v` on, each list of
`between` follows a `scan` call that returned a cursor other than zero.  Answers the
nodes each `scan` call reported and the last state. -/
def scanRun [DecidableEq K] (params : HashParams K T) :
    Hash T → BitVec 64 → List (List (HashCall K T)) →
      Option (List (List (HashNode T)) × Hash T)
  | h, v, [] =>
      match h.scan v with
      | some (v', values) => if v' = 0 then some ([values], h) else none
      | none => none
  | h, v, calls :: rest =>
      match h.scan v with
      | some (v', values) =>
          if v' = 0 then none
          else
            match (hashMachine params).run h calls with
            | some (next, _) =>
                (scanRun params next v' rest).map fun r => (values :: r.1, r.2)
            | none => none
      | none => none

section Runs

variable [DecidableEq K] {params : HashParams K T}

theorem scanRun_nil_eq_some {h last : Hash T} {v : BitVec 64}
    {outs : List (List (HashNode T))} :
    scanRun params h v [] = some (outs, last) ↔
      ∃ values, h.scan v = some (0, values) ∧ outs = [values] ∧ last = h := by
  rw [scanRun]
  constructor
  · intro hrun
    split at hrun
    · rename_i v' values hscan
      split at hrun
      · rename_i hzero
        cases hrun
        exact ⟨values, by rw [hscan, hzero], rfl, rfl⟩
      · cases hrun
    · cases hrun
  · rintro ⟨values, hscan, rfl, rfl⟩
    simp [hscan]

theorem scanRun_cons_eq_some {h last : Hash T} {v : BitVec 64}
    {calls : List (HashCall K T)} {rest : List (List (HashCall K T))}
    {outs : List (List (HashNode T))} :
    scanRun params h v (calls :: rest) = some (outs, last) ↔
      ∃ v' values next answers tail, h.scan v = some (v', values) ∧ v' ≠ 0 ∧
        (hashMachine params).run h calls = some (next, answers) ∧
        scanRun params next v' rest = some (tail, last) ∧ outs = values :: tail := by
  rw [scanRun]
  constructor
  · intro hrun
    split at hrun
    · rename_i v' values hscan
      split at hrun
      · cases hrun
      · rename_i hne
        split at hrun
        · rename_i next answers hcalls
          obtain ⟨⟨tail, final⟩, htail, heq⟩ := Option.map_eq_some_iff.mp hrun
          cases heq
          exact ⟨v', values, next, answers, tail, hscan, hne, hcalls, htail, rfl⟩
        · cases hrun
    · cases hrun
  · rintro ⟨v', values, next, answers, tail, hscan, hne, hcalls, htail, rfl⟩
    rw [hscan]
    dsimp only
    rw [if_neg hne, hcalls]
    dsimp only
    rw [htail]
    rfl

/-! ## Nodes ahead of the cursor -/

omit [DecidableEq K] in
/-- The index computed by a method as a masked word. -/
theorem index_eq_toNat (params : HashParams K T) (mask : Nat) (key : K) :
    params.index mask key = (params.mHasher key &&& BitVec.ofNat 64 mask).toNat := by
  have hlt : (params.mHasher key).toNat &&& mask < 2 ^ 64 :=
    Nat.lt_of_le_of_lt Nat.and_le_left (params.mHasher key).isLt
  rw [HashParams.index, BitVec.toNat_and, BitVec.toNat_ofNat, ← Nat.mod_eq_of_lt hlt,
    Nat.and_mod_two_pow, Nat.mod_eq_of_lt (params.mHasher key).isLt]

/-- The rank of a node's hash. -/
def hashRank (params : HashParams K T) (node : HashNode T) : Nat :=
  rank (params.mHasher (params.getKey node.mValue))

/-- The bucket has a word between the cursor and the hash of the node: the cursor has
not passed the bucket, and the bucket does not come after the home bucket. -/
def Ahead (params : HashParams K T) (v : BitVec 64) (count index : Nat)
    (node : HashNode T) : Prop :=
  ∃ u, rank v ≤ rank u ∧ rank u ≤ hashRank params node ∧
    index = (u &&& BitVec.ofNat 64 (count - 1)).toNat

omit [DecidableEq K] in
theorem ahead_home {v : BitVec 64} {count : Nat} {node : HashNode T}
    (hbefore : rank v ≤ hashRank params node) :
    Ahead params v count (params.home (count - 1) node) node :=
  ⟨_, hbefore, Nat.le_refl _, index_eq_toNat params (count - 1) _⟩

omit [DecidableEq K] in
/-- The mask of a state as the low mask of some number of bits. -/
theorem number_mask {h : Hash T} (hinv : RehashInvariant h) :
    ∃ bits, bits ≤ 64 ∧ h.mBucketsNumber = 2 ^ bits ∧
      BitVec.ofNat 64 (h.mBucketsNumber - 1) = lowMask 64 bits := by
  have htarget := hinv.target_number
  have hcount := hinv.number_count
  rw [← htarget] at hcount ⊢
  exact wordMask_eq hcount

/-- Whatever mask an insertion uses, the bucket does not come after the home bucket. -/
theorem ahead_step {h next : Hash T} {call : HashCall K T} {answer : HashAnswer T}
    (hinv : RehashInvariant h) (hplaced : h.Placed (Ahead params 0))
    (hstep : hashStep params h call = some (next, answer)) : next.Placed (Ahead params 0) := by
  have hzero : ∀ place, rank (0 : BitVec 64) ≤ place := fun place => by
    rw [rank_zero]
    exact Nat.zero_le _
  refine (placed_step (fun _ _ _ => ahead_home (hzero _)) hinv hplaced hstep).mpr ?_
  cases hashStep_effect hstep with
  | @insert value middle next hadvance hput =>
      have hmiddle := (rehashed_of_advance hinv hadvance).invariant
      have hle := number_le_of_advance hinv hadvance
      obtain ⟨bits, -, hbits, hmask⟩ := number_mask hinv
      obtain ⟨more, hmore, hmoreCount, hmoreMask⟩ := number_mask hmiddle
      have hbitsLe : bits ≤ more := by
        rw [hbits, hmoreCount] at hle
        exact (Nat.pow_le_pow_iff_right (by decide)).mp hle
      rw [FilesUnder, put_number hput, hinv.mask]
      refine ⟨params.mHasher (params.getKey value) &&& lowMask 64 bits, hzero _,
        rank_and_le _ _, ?_⟩
      rw [index_eq_toNat, hmask, hmoreMask, BitVec.and_assoc,
        BitVec.and_comm (lowMask 64 bits), lowMask_and_lowMask hbitsLe hmore]
  | erase => trivial
  | lookup hcall => rcases hcall with ⟨key, rfl⟩ | ⟨key, rfl⟩ <;> trivial
  | @iterator call answer next hcall =>
      cases call with
      | insert value => exact absurd hcall id
      | _ => trivial
  | scan => trivial

/-! ## Coverage -/

/-- What the scan keeps for a node it still has to report. -/
structure Tracked (params : HashParams K T) (v : BitVec 64) (node : HashNode T)
    (h : Hash T) : Prop where
  invariant : RehashInvariant h
  paced : Paced params.factors 1 h
  addr : node.addr < h.newAddr
  ahead : h.Placed fun count index stored => stored = node → Ahead params v count index stored

/-- Other calls only move such a node to its home bucket, which is ahead as well. -/
theorem Tracked.step {v : BitVec 64} {node : HashNode T} {h next : Hash T}
    {call : HashCall K T} {answer : HashAnswer T} (hbefore : rank v ≤ hashRank params node)
    (htracked : Tracked params v node h)
    (hstep : hashStep params h call = some (next, answer)) : Tracked params v node next := by
  have hinv := htracked.invariant
  refine ⟨(step_spec hinv hstep).1, htracked.paced.step hinv hstep,
    Nat.lt_of_lt_of_le htracked.addr (step_newAddr hinv hstep).1, ?_⟩
  have hadmits : AdmitsHome params fun count index stored =>
      stored = node → Ahead params v count index stored := fun count stored _ hsame => by
    subst hsame
    exact ahead_home hbefore
  refine (placed_step hadmits hinv htracked.ahead hstep).mpr ?_
  cases call with
  | insert value =>
      intro hsame
      have haddr := htracked.addr
      rw [← hsame] at haddr
      exact absurd haddr (Nat.lt_irrefl _)
  | _ => trivial

theorem Tracked.run {v : BitVec 64} {node : HashNode T} {h next : Hash T}
    {calls : List (HashCall K T)} {answers : List (HashAnswer T)}
    (hbefore : rank v ≤ hashRank params node) (htracked : Tracked params v node h)
    (hrun : (hashMachine params).run h calls = some (next, answers)) :
    Tracked params v node next :=
  Machine.run_invariant (fun _ _ _ _ hprior hstep => hprior.step hbefore hstep) htracked hrun

omit [DecidableEq K] in
/-- The early exit on an empty old table is only taken when nothing is stored. -/
theorem size_ne_zero_of_stored {h : Hash T} (hinv : RehashInvariant h)
    (hpaced : Paced params.factors 1 h) {node : HashNode T} (hnode : node ∈ h.entries) :
    h.mActive.mSize ≠ 0 := by
  cases hbackup : h.mBackup with
  | none =>
      rw [hinv.idle_size (hinv.idle_of_none hbackup), ← entries_of_none hbackup]
      exact (List.length_pos_of_mem hnode).ne'
  | some backup =>
      have hpos := hpaced.active_pos hinv hbackup
      omega

omit [DecidableEq K] in
/-- A word of a bucket the call has not read comes at the next interval or later. -/
theorem later_of_unread {h : Hash T} {v v' : BitVec 64} {values : List (HashNode T)}
    {bits : Nat} {node : HashNode T} (hscanned : Scanned h v v' values bits)
    (hnot : node ∉ values) {table : HashTable T} (htable : table ∈ h.tables) {u : BitVec 64}
    (hlow : rank v ≤ rank u) (hmem : node ∈ table.getBucketHead (u &&& wordMask table).toNat) :
    v' ≠ 0 ∧ rank v' ≤ rank u := by
  have hother : rank u / stride 64 bits ≠ rank v / stride 64 bits := fun hsame => by
    refine hnot ((hscanned.values_iff node).mpr ⟨table, htable, u, ?_, hlow, hmem⟩)
    rw [hscanned.mask]
    exact (and_lowMask_eq_iff hscanned.bits_le u v).mpr hsame
  have hnext : rank v / stride 64 bits + 1 ≤ rank u / stride 64 bits :=
    Nat.lt_of_le_of_ne (Nat.div_le_div_right hlow) (Ne.symm hother)
  have hle : (rank v / stride 64 bits + 1) * stride 64 bits ≤ rank u :=
    (Nat.mul_le_mul_right _ hnext).trans (Nat.div_mul_le_self _ _)
  have hrank := hscanned.cursor
  rw [Nat.mod_eq_of_lt (Nat.lt_of_le_of_lt hle (rank_lt u))] at hrank
  refine ⟨fun hzero => ?_, hrank.le.trans hle⟩
  have hpos := Nat.mul_pos (Nat.succ_pos (rank v / stride 64 bits)) (stride_pos 64 bits)
  rw [hzero, rank_zero] at hrank
  exact hpos.ne hrank

omit [DecidableEq K] in
theorem Tracked.ahead_of_mem {v : BitVec 64} {node : HashNode T} {h : Hash T}
    (htracked : Tracked params v node h) {table : HashTable T} (htable : table ∈ h.tables) :
    table.Placed fun count index stored =>
      stored = node → Ahead params v count index stored := by
  rcases List.mem_cons.mp htable with rfl | htable
  · exact htracked.ahead.1
  · exact htracked.ahead.2 table (Option.mem_toList.mp htable)

omit [DecidableEq K] in
/-- A call of `scan` reports such a node, or leaves it ahead of the cursor it returns. -/
theorem Tracked.scan {v v' : BitVec 64} {values : List (HashNode T)} {node : HashNode T}
    {h : Hash T} (htracked : Tracked params v node h) (hnode : node ∈ h.entries)
    (hscan : h.scan v = some (v', values)) :
    node ∈ values ∨
      v' ≠ 0 ∧ rank v' ≤ hashRank params node ∧ Tracked params v' node h := by
  rcases scan_spec htracked.invariant v with ⟨hzero, -⟩ | ⟨-, w', found, bits, hresult, hscanned⟩
  · exact absurd hzero (size_ne_zero_of_stored htracked.invariant htracked.paced hnode)
  · cases hscan.symm.trans hresult
    rw [or_iff_not_imp_left]
    intro hnot
    have hmoved : ∀ table ∈ h.tables, table.Placed fun count index stored =>
        stored = node → Ahead params v' count index stored := by
      intro table htable index stored hstored hsame
      obtain ⟨u, hlow, hhigh, rfl⟩ :=
        htracked.ahead_of_mem htable index stored hstored hsame
      subst hsame
      exact ⟨u, (later_of_unread hscanned hnot htable hlow hstored).2, hhigh, rfl⟩
    obtain ⟨table, htable, hmem⟩ := mem_entries_iff.mp hnode
    obtain ⟨index, hindex⟩ := HashTable.mem_entries.mp hmem
    obtain ⟨u, hlow, hhigh, rfl⟩ := htracked.ahead_of_mem htable index node hindex rfl
    obtain ⟨hne, hle⟩ := later_of_unread hscanned hnot htable hlow hindex
    refine ⟨hne, hle.trans hhigh, htracked.invariant, htracked.paced, htracked.addr,
      hmoved _ List.mem_cons_self, fun backup hbackup => hmoved backup ?_⟩
    exact List.mem_cons_of_mem _ (Option.mem_toList.mpr hbackup)

/-- Over a whole scan no node that was gone comes back. -/
theorem stored_of_scanRun {node : HashNode T} {between : List (List (HashCall K T))}
    {v : BitVec 64} {h last : Hash T} {outs : List (List (HashNode T))}
    (hinv : RehashInvariant h) (haddr : node.addr < h.newAddr) (hgone : node ∉ h.entries)
    (hrun : scanRun params h v between = some (outs, last)) : node ∉ last.entries := by
  induction between generalizing h v outs with
  | nil =>
      obtain ⟨values, -, -, rfl⟩ := scanRun_nil_eq_some.mp hrun
      exact hgone
  | cons calls rest ih =>
      obtain ⟨v', values, next, answers, tail, -, -, hcalls, htail, -⟩ :=
        scanRun_cons_eq_some.mp hrun
      have hkeep : ∀ state call after answer,
          RehashInvariant state ∧ node.addr < state.newAddr ∧ node ∉ state.entries →
          (hashMachine params).step state call = some (after, answer) →
          RehashInvariant after ∧ node.addr < after.newAddr ∧ node ∉ after.entries := by
        rintro state call after answer ⟨hstate, hbelow, hnot⟩ hstep
        exact ⟨(step_spec hstate hstep).1,
          Nat.lt_of_lt_of_le hbelow (step_newAddr hstate hstep).1,
          fun hmem => hnot (stored_of_step hstate hstep hbelow hmem)⟩
      obtain ⟨hnext, hbelow, hnot⟩ :=
        Machine.run_invariant hkeep ⟨hinv, haddr, hgone⟩ hcalls
      exact ih hnext hbelow hnot htail

/-- From any cursor on, a scan reports every node ahead of it that stays stored. -/
theorem Tracked.scanRun {node : HashNode T} {between : List (List (HashCall K T))}
    {v : BitVec 64} {h last : Hash T} {outs : List (List (HashNode T))}
    (htracked : Tracked params v node h) (hlast : node ∈ last.entries)
    (hrun : scanRun params h v between = some (outs, last)) : node ∈ outs.flatten := by
  have hnode : node ∈ h.entries := by
    by_contra hgone
    exact stored_of_scanRun htracked.invariant htracked.addr hgone hrun hlast
  induction between generalizing h v outs with
  | nil =>
      obtain ⟨values, hscan, rfl, rfl⟩ := scanRun_nil_eq_some.mp hrun
      rcases htracked.scan hnode hscan with hmem | ⟨hne, -⟩
      · simpa using hmem
      · exact absurd rfl hne
  | cons calls rest ih =>
      obtain ⟨v', values, next, answers, tail, hscan, -, hcalls, htail, rfl⟩ :=
        scanRun_cons_eq_some.mp hrun
      rw [List.flatten_cons, List.mem_append]
      rcases htracked.scan hnode hscan with hmem | ⟨-, hbefore, hnext⟩
      · exact .inl hmem
      · right
        have hafter := hnext.run hbefore hcalls
        refine ih hafter htail ?_
        by_contra hgone
        exact stored_of_scanRun hafter.invariant hafter.addr hgone htail hlast

/-- What a scan may start from. -/
structure Scannable (params : HashParams K T) (h : Hash T) : Prop where
  invariant : RehashInvariant h
  paced : Paced params.factors 1 h
  addressed : Addressed h
  ahead : h.Placed (Ahead params 0)

theorem Scannable.step {h next : Hash T} {call : HashCall K T} {answer : HashAnswer T}
    (hscannable : Scannable params h) (hstep : hashStep params h call = some (next, answer)) :
    Scannable params next :=
  ⟨(step_spec hscannable.invariant hstep).1, hscannable.paced.step hscannable.invariant hstep,
    addressed_step hscannable.invariant hscannable.addressed hstep,
    ahead_step hscannable.invariant hscannable.ahead hstep⟩

theorem reachable_scannable (params : HashParams K T) {h : Hash T}
    (hreach : (hashMachine params).Reachable h) : Scannable params h :=
  hreach.invariant ⟨RehashInvariant.new, Paced.new params.factors, addressed_new, placed_new⟩
    fun _ _ _ _ hprior hstep => hprior.step hstep

/-- Every node stored from before the first call of a scan until after the last one is
reported, whatever calls are made in between. -/
theorem scan_covers (params : HashParams K T) {h last : Hash T}
    {between : List (List (HashCall K T))} {outs : List (List (HashNode T))}
    {node : HashNode T} (hreach : (hashMachine params).Reachable h)
    (hrun : scanRun params h 0 between = some (outs, last)) (hfirst : node ∈ h.entries)
    (hlast : node ∈ last.entries) : node ∈ outs.flatten := by
  obtain ⟨hinv, hpaced, haddr, hahead⟩ := reachable_scannable params hreach
  have htracked : Tracked params 0 node h :=
    ⟨hinv, hpaced, haddr.below node hfirst,
      fun index stored hstored _ => hahead.1 index stored hstored,
      fun backup hbackup index stored hstored _ => hahead.2 backup hbackup index stored hstored⟩
  exact htracked.scanRun hlast hrun

theorem scan_covers_expanding :
    ∃ outs last,
      scanRun HashParams.identity expanding 0
          [[.insert (5, 5), .erase 3], [.get 2, .beginIter], [], [], [], []] =
        some (outs, last) ∧
      ∀ node ∈ expanding.entries, node ∈ last.entries → node ∈ outs.flatten := by
  obtain ⟨⟨outs, last⟩, hrun⟩ := Option.isSome_iff_exists.mp
    (by decide : (scanRun HashParams.identity expanding 0
      [[.insert (5, 5), .erase 3], [.get 2, .beginIter], [], [], [], []]).isSome = true)
  exact ⟨outs, last, hrun, fun node hfirst hlast =>
    scan_covers HashParams.identity reachable_expanding hrun hfirst hlast⟩

/-! ## Repetitions -/

/-- A condition holds of every `scan` call of a run, in the state it is made in. -/
def ScanAlong (params : HashParams K T) (Meets : Hash T → BitVec 64 → Prop) :
    Hash T → BitVec 64 → List (List (HashCall K T)) → Prop
  | h, v, [] => Meets h v
  | h, v, calls :: rest =>
      Meets h v ∧
        match h.scan v, (hashMachine params).run h calls with
        | some (v', _), some (next, _) => ScanAlong params Meets next v' rest
        | _, _ => True

instance decidableScanAlong (params : HashParams K T) (Meets : Hash T → BitVec 64 → Prop)
    [∀ h v, Decidable (Meets h v)] :
    (h : Hash T) → (v : BitVec 64) → (between : List (List (HashCall K T))) →
      Decidable (ScanAlong params Meets h v between)
  | h, v, [] => inferInstanceAs (Decidable (Meets h v))
  | h, v, calls :: rest =>
      match hscan : h.scan v, hrun : (hashMachine params).run h calls with
      | some (v', _), some (next, _) =>
          have := decidableScanAlong params Meets next v' rest
          decidable_of_iff (Meets h v ∧ ScanAlong params Meets next v' rest)
            (by simp only [ScanAlong, hscan, hrun])
      | none, _ => decidable_of_iff (Meets h v) (by simp [ScanAlong, hscan])
      | some _, none => decidable_of_iff (Meets h v) (by simp [ScanAlong, hrun])

/-- The call reads only nodes whose hash, as a cursor, lies in the rest of the smaller
table's interval: none that the scan has passed. -/
def ReadsAhead (params : HashParams K T) (h : Hash T) (v : BitVec 64) : Prop :=
  ∀ node, Reads h v node →
    params.mHasher (params.getKey node.mValue) &&& smallMask h = v &&& smallMask h ∧
      rank v ≤ hashRank params node

omit [DecidableEq K] in
theorem cursor_of_ne_zero {h : Hash T} {v v' : BitVec 64} {values : List (HashNode T)}
    {bits : Nat} (hscanned : Scanned h v v' values bits) (hne : v' ≠ 0) :
    rank v' = (rank v / stride 64 bits + 1) * stride 64 bits := by
  have hrank := hscanned.cursor
  have hle : (rank v / stride 64 bits + 1) * stride 64 bits ≤ 2 ^ 64 := by
    rw [← mul_stride hscanned.bits_le]
    refine Nat.mul_le_mul_right _ (Nat.succ_le_of_lt ?_)
    rw [Nat.div_lt_iff_lt_mul (stride_pos 64 bits), mul_stride hscanned.bits_le]
    exact rank_lt v
  rcases Nat.eq_or_lt_of_le hle with heq | hlt
  · rw [heq, Nat.mod_self, rank_eq_zero] at hrank
    exact absurd hrank hne
  · rwa [Nat.mod_eq_of_lt hlt] at hrank

omit [DecidableEq K] in
/-- What a call that reads ahead reports lies between the two cursors. -/
theorem Scannable.reads {h : Hash T} {v v' : BitVec 64} {values : List (HashNode T)}
    (hscannable : Scannable params h) (hahead : ReadsAhead params h v)
    (hscan : h.scan v = some (v', values)) :
    values.Nodup ∧ ∀ node ∈ values,
      rank v ≤ hashRank params node ∧ (v' ≠ 0 → hashRank params node < rank v') := by
  rcases scan_spec hscannable.invariant v with
    ⟨-, hresult⟩ | ⟨-, w', found, bits, hresult, hscanned⟩
  · cases hscan.symm.trans hresult
    exact ⟨List.nodup_nil, fun node hnode => absurd hnode List.not_mem_nil⟩
  · cases hscan.symm.trans hresult
    refine ⟨hscanned.nodup hscannable.addressed.nodup, fun node hnode => ?_⟩
    obtain ⟨hsame, hlow⟩ := hahead node ((hscanned.values_iff node).mp hnode)
    refine ⟨hlow, fun hne => ?_⟩
    rw [hscanned.mask] at hsame
    have hinterval : hashRank params node / stride 64 bits = rank v / stride 64 bits :=
      (and_lowMask_eq_iff hscanned.bits_le _ _).mp hsame
    rw [cursor_of_ne_zero hscanned hne, ← Nat.div_lt_iff_lt_mul (stride_pos 64 bits), hinterval]
    exact Nat.lt_succ_self _

omit [DecidableEq K] in
theorem Scannable.cursor_le {h : Hash T} {v v' : BitVec 64} {values : List (HashNode T)}
    (hscannable : Scannable params h) (hscan : h.scan v = some (v', values)) (hne : v' ≠ 0) :
    rank v ≤ rank v' := by
  rcases scan_spec hscannable.invariant v with
    ⟨-, hresult⟩ | ⟨-, w', found, bits, hresult, hscanned⟩
  · cases hscan.symm.trans hresult
    exact absurd rfl hne
  · cases hscan.symm.trans hresult
    rw [cursor_of_ne_zero hscanned hne]
    exact (Nat.lt_mul_of_div_lt (Nat.lt_succ_self _) (stride_pos 64 bits)).le

omit [DecidableEq K] in
/-- A cursor of the smaller table reads only nodes ahead when all lie at home. -/
theorem readsAhead_of_home {h : Hash T} {v : BitVec 64} (hinv : RehashInvariant h)
    (hhome : AllHome params h) (haligned : v &&& ~~~smallMask h = 0) :
    ReadsAhead params h v := by
  rintro node ⟨table, htable, u, hsame, hlow, hnode⟩
  obtain ⟨bits, hbits, hsmall, htables⟩ := smallMask_spec hinv
  obtain ⟨more, hle, hmore, hmask⟩ := htables table htable
  have hat : params.home (table.mBucketsNumber - 1) node = (u &&& wordMask table).toNat := by
    rcases List.mem_cons.mp htable with rfl | hbackup
    · exact hhome.1 _ node hnode
    · exact hhome.2 table (Option.mem_toList.mp hbackup) _ node hnode
  have hlarge : params.mHasher (params.getKey node.mValue) &&& lowMask 64 more =
      u &&& lowMask 64 more := by
    rw [HashParams.home, index_eq_toNat] at hat
    rw [← hmask]
    exact BitVec.eq_of_toNat_eq hat
  have hhash : params.mHasher (params.getKey node.mValue) &&& smallMask h =
      v &&& smallMask h := by
    rw [← hsame, hsmall, ← lowMask_and_lowMask hle hmore, ← BitVec.and_assoc, hlarge,
      BitVec.and_assoc, lowMask_and_lowMask hle hmore]
  refine ⟨hhash, ?_⟩
  have hv : v &&& smallMask h = v := by
    apply BitVec.eq_of_getLsbD_eq
    intro i hi
    have hbit := congrArg (fun word => BitVec.getLsbD word i) haligned
    simp only [BitVec.getLsbD_and, BitVec.getLsbD_not, hi] at hbit ⊢
    cases hvi : v.getLsbD i <;> simp_all
  calc rank v = rank (v &&& smallMask h) := by rw [hv]
    _ = rank (params.mHasher (params.getKey node.mValue) &&& smallMask h) := by rw [hhash]
    _ ≤ hashRank params node := rank_and_le _ _

/-- So the condition is met where every call finds all nodes at home and a cursor of the
smaller table.  Only a shrink that starts in the middle of a scan breaks the latter. -/
theorem readsAhead_along {between : List (List (HashCall K T))} {v : BitVec 64} {h : Hash T}
    (hscannable : Scannable params h)
    (hhome : ScanAlong params (fun h v => AllHome params h ∧ v &&& ~~~smallMask h = 0)
      h v between) :
    ScanAlong params (ReadsAhead params) h v between := by
  induction between generalizing h v with
  | nil => exact readsAhead_of_home hscannable.invariant hhome.1 hhome.2
  | cons calls rest ih =>
      obtain ⟨⟨hfirst, haligned⟩, hrest⟩ := hhome
      refine ⟨readsAhead_of_home hscannable.invariant hfirst haligned, ?_⟩
      split
      · rename_i v' values next answers hscan hcalls
        rw [hscan, hcalls] at hrest
        exact ih (Machine.run_invariant (fun _ _ _ _ hprior hstep => hprior.step hstep)
          hscannable hcalls) hrest
      · trivial

/-- A scan whose calls all read ahead reports no node twice. -/
theorem ReadsAhead.scanRun {between : List (List (HashCall K T))} {v : BitVec 64}
    {h last : Hash T} {outs : List (List (HashNode T))} (hscannable : Scannable params h)
    (hahead : ScanAlong params (ReadsAhead params) h v between)
    (hrun : scanRun params h v between = some (outs, last)) :
    outs.flatten.Nodup ∧ ∀ node ∈ outs.flatten, rank v ≤ hashRank params node := by
  induction between generalizing h v outs with
  | nil =>
      obtain ⟨values, hscan, rfl, rfl⟩ := scanRun_nil_eq_some.mp hrun
      obtain ⟨hnodup, hvalues⟩ := hscannable.reads hahead hscan
      simp only [List.flatten_cons, List.flatten_nil, List.append_nil]
      exact ⟨hnodup, fun node hnode => (hvalues node hnode).1⟩
  | cons calls rest ih =>
      obtain ⟨v', values, next, answers, tail, hscan, hne, hcalls, htail, rfl⟩ :=
        scanRun_cons_eq_some.mp hrun
      obtain ⟨hfirst, hrest⟩ := hahead
      rw [hscan, hcalls] at hrest
      obtain ⟨hnodup, hvalues⟩ := hscannable.reads hfirst hscan
      have hnext : Scannable params next :=
        Machine.run_invariant (fun _ _ _ _ hprior hstep => hprior.step hstep) hscannable hcalls
      obtain ⟨htailNodup, htailAhead⟩ := ih hnext hrest htail
      rw [List.flatten_cons]
      refine ⟨List.nodup_append.mpr ⟨hnodup, htailNodup, ?_⟩, fun node hnode => ?_⟩
      · rintro node hnode other hother rfl
        have hbefore := (hvalues node hnode).2 hne
        have hafter := htailAhead node hother
        omega
      · rcases List.mem_append.mp hnode with hnode | hnode
        · exact (hvalues node hnode).1
        · have hbefore := (hscannable.cursor_le hscan hne)
          exact hbefore.trans (htailAhead node hnode)

/-- No node is reported twice by a scan whose calls only read nodes that the cursor has
not passed. -/
theorem scan_nodup (params : HashParams K T) {h last : Hash T}
    {between : List (List (HashCall K T))} {outs : List (List (HashNode T))}
    (hreach : (hashMachine params).Reachable h)
    (hahead : ScanAlong params (ReadsAhead params) h 0 between)
    (hrun : scanRun params h 0 between = some (outs, last)) : outs.flatten.Nodup :=
  (ReadsAhead.scanRun (reachable_scannable params hreach) hahead hrun).1

theorem scan_nodup_expanding :
    ∃ outs last,
      scanRun HashParams.identity expanding 0
          [[.insert (5, 5), .erase 3], [.get 2], [], [], [], []] = some (outs, last) ∧
      outs.flatten.Nodup := by
  obtain ⟨⟨outs, last⟩, hrun⟩ := Option.isSome_iff_exists.mp
    (by decide : (scanRun HashParams.identity expanding 0
      [[.insert (5, 5), .erase 3], [.get 2], [], [], [], []]).isSome = true)
  exact ⟨outs, last, hrun, scan_nodup HashParams.identity reachable_expanding
    (readsAhead_along (reachable_scannable _ reachable_expanding) (by decide)) hrun⟩

/-- Seven entries in 64 buckets: the next removal starts a shrink to eight buckets. -/
def sparse : Hash (Nat × Nat) :=
  (hashMachine HashParams.identity).stateAfter
    (insertions (List.range 33) ++ [.endIter, .get 0, .endIter] ++
      (List.range' 7 26).map .erase) (by decide +kernel)

/-- The first call reports the entry `0` and returns cursor `32`; the removal of `6` starts
the shrink and moves `0` to the new table, whose bucket the next call reads again. -/
theorem not_scan_nodup :
    ¬ ∀ (h last : Hash (Nat × Nat)) (between : List (List (HashCall Nat (Nat × Nat))))
        (outs : List (List (HashNode (Nat × Nat)))),
      (hashMachine HashParams.identity).Reachable h →
        scanRun HashParams.identity h 0 between = some (outs, last) → outs.flatten.Nodup := by
  intro hall
  have hrepeats : (scanRun HashParams.identity sparse 0
      [[.erase 6], [], [], [], [], [], [], []]).any
        (fun result => !decide result.1.flatten.Nodup) = true := by
    decide +kernel
  obtain ⟨⟨outs, last⟩, hrun, hnot⟩ := (Option.any_eq_true _ _).mp hrepeats
  have hnodup := hall sparse last _ outs (Machine.reachable_stateAfter _ _ _) hrun
  simp [hnodup] at hnot

end Runs

end Hash

end RedisDB
