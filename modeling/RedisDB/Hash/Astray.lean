import RedisDB.Hash.Addresses
import RedisDB.Hash.Placement
import RedisDB.Hash.Scan

/-!
# Nodes that are not at home

Only the insertion that starts an expansion can file its node in a wrong bucket, and
the next rehash files that node anew.  So a table holds one such node at most, half
the table before its home.
-/

namespace RedisDB

open RedisDB.Library

variable {K T : Type}

namespace HashTable

/-- The nodes of a table that do not lie in their home bucket. -/
def astray (params : HashParams K T) (table : HashTable T) : List (HashNode T) :=
  (List.range table.mBucketsNumber).flatMap fun index =>
    (table.getBucketHead index).filter fun node =>
      params.home (table.mBucketsNumber - 1) node ≠ index

theorem mem_astray {params : HashParams K T} {table : HashTable T} {node : HashNode T} :
    node ∈ table.astray params ↔
      ∃ index, node ∈ table.getBucketHead index ∧
        params.home (table.mBucketsNumber - 1) node ≠ index := by
  simp only [astray, List.mem_flatMap, List.mem_range, List.mem_filter, decide_eq_true_eq]
  constructor
  · rintro ⟨index, -, hnode⟩
    exact ⟨index, hnode⟩
  · rintro ⟨index, hnode, hne⟩
    exact ⟨index, lt_of_mem_getBucketHead hnode, hnode, hne⟩

/-- The contents are the chains in the order of their buckets. -/
theorem entries_eq_flatMap (table : HashTable T) :
    table.entries = (List.range table.mBucketsNumber).flatMap table.getBucketHead := by
  rw [entries, ← table.mNodes_length, List.flatMap_def]
  congr 1
  apply List.ext_getElem
  · simp
  · intro index hindex hindex'
    have hlt : index < table.mBucketsNumber := by rwa [← table.mNodes_length]
    simp [getBucketHead_of_lt hlt, hindex]

theorem chain_sublist (table : HashTable T) (index : Nat) :
    (table.getBucketHead index).Sublist table.entries := by
  by_cases hlt : index < table.mBucketsNumber
  · rw [entries_eq_flatMap, List.flatMap_def]
    exact List.sublist_flatten_of_mem (List.mem_map_of_mem (List.mem_range.mpr hlt))
  · have hnil : table.getBucketHead index = [] :=
      List.eq_nil_iff_forall_not_mem.mpr fun _ hnode => hlt (lt_of_mem_getBucketHead hnode)
    rw [hnil]
    exact List.nil_sublist _

theorem astray_sublist (params : HashParams K T) (table : HashTable T) :
    (table.astray params).Sublist table.entries := by
  rw [entries_eq_flatMap, astray]
  apply List.Sublist.flatMap_right
  exact fun index _ => List.filter_sublist

end HashTable

namespace Hash

/-- A node lies at home, or it is the one with this address and lies half the table
before its home. -/
def HomeBut (params : HashParams K T) (addr count index : Nat) (node : HashNode T) : Prop :=
  params.home (count - 1) node = index ∨
    node.addr = addr ∧ params.home (count - 1) node = index + count / 2

/-- Each table has at most the node with the given address in a wrong bucket. -/
structure OneAstray (params : HashParams K T) (old new : Nat) (h : Hash T) : Prop where
  active : h.mActive.Placed (HomeBut params old)
  backup : ∀ backup, h.mBackup = some backup → backup.Placed (HomeBut params new)

theorem admitsHome_homeBut (params : HashParams K T) (addr : Nat) :
    AdmitsHome params (HomeBut params addr) := fun _ _ _ => Or.inl rfl

/-- Nodes with addresses of their own: one at most is the one that may be astray. -/
theorem length_astray_le {params : HashParams K T} {addr : Nat} {table : HashTable T}
    (hplaced : table.Placed (HomeBut params addr))
    (hnodup : (table.entries.map HashNode.addr).Nodup) :
    (table.astray params).length ≤ 1 := by
  have haddrs := hnodup.sublist ((table.astray_sublist params).map HashNode.addr)
  have hsame : ∀ node ∈ table.astray params, node.addr = addr := by
    intro node hnode
    obtain ⟨index, hnode, haway⟩ := HashTable.mem_astray.mp hnode
    exact ((hplaced index node hnode).resolve_left haway).1
  match hastray : table.astray params with
  | [] => simp
  | [_] => simp
  | first :: second :: rest =>
      rw [hastray] at haddrs hsame
      have hequal : first.addr = second.addr := by
        rw [hsame first (by simp), hsame second (by simp)]
      simp [hequal] at haddrs

theorem oneAstray_new (params : HashParams K T) (old new : Nat) :
    OneAstray params old new (Hash.new : Hash T) :=
  ⟨placed_new.1, fun _ h0 => by cases h0⟩

/-! ## Rehash steps -/

variable {params : HashParams K T} {h next : Hash T} {old new step : Nat} {isAuto : Bool}

/-- A move files nodes at home; when it ends the rehash the new table is the only one. -/
theorem OneAstray.rehash (hinv : RehashInvariant h) (hbackup : h.mBackup ≠ none)
    (hastray : OneAstray params old new h)
    (hrehash : h.rehash params step isAuto = some next) :
    ∃ old', OneAstray params old' new next ∧ (next.mBackup = none → old' = new) := by
  obtain ⟨backup, hbackup⟩ := Option.ne_none_iff_exists'.mp hbackup
  obtain ⟨index, hbusy, hindex⟩ := hinv.cursor hbackup
  obtain ⟨active, received, hreleased, hreceived, hresult⟩ :=
    rehash_of_busy step isAuto hbusy hindex (hinv.home_lt params hbackup)
  have hactive := hreleased.placed hastray.active
  rw [hinv.mask, ← (hinv.busy backup hbackup).number] at hreceived
  have htarget := hreceived.placed (admitsHome_homeBut params new)
    (hinv.backup_count backup hbackup) (hastray.backup backup hbackup)
  rw [hresult] at hrehash
  rw [← Option.some.inj hrehash]
  split
  · exact ⟨new, ⟨htarget, fun _ h0 => by cases h0⟩, fun _ => rfl⟩
  · exact ⟨old, ⟨hactive, fun table h0 => by cases h0; exact htarget⟩, fun h0 => by cases h0⟩

/-- The table of a rehash that starts is empty, so it may have any node astray. -/
theorem OneAstray.start (hinv : RehashInvariant h) (hidle : h.mBackup = none)
    (hdue : h.Due params) (hastray : OneAstray params old new h) (addr : Nat)
    (hrehash : h.rehash params step isAuto = some next) :
    ∃ old', OneAstray params old' addr next ∧ (next.mBackup = none → old' = addr) := by
  obtain ⟨table, hstarted, hrest⟩ := rehash_of_due hinv hidle hdue hrehash
  have hempty : OneAstray params old addr (h.startedState table) := by
    refine ⟨hastray.active, fun other h0 => ?_⟩
    cases h0
    exact HashTable.placed_of_empty hstarted.chains
  exact hempty.rehash hstarted.invariant (by simp [startedState]) hrest

/-- Some node is the one that may be astray. -/
def FewAstray (params : HashParams K T) (h : Hash T) : Prop :=
  ∃ old new, OneAstray params old new h

theorem FewAstray.rehash (hinv : RehashInvariant h) (hdue : h.mBackup = none → h.Due params)
    (hastray : FewAstray params h) (hrehash : h.rehash params step isAuto = some next) :
    FewAstray params next := by
  obtain ⟨old, new, hastray⟩ := hastray
  cases hbackup : h.mBackup with
  | none =>
      obtain ⟨old', hnext, -⟩ := hastray.start hinv hbackup (hdue hbackup) 0 hrehash
      exact ⟨old', 0, hnext⟩
  | some backup =>
      obtain ⟨old', hnext, -⟩ := hastray.rehash hinv (by simp [hbackup]) hrehash
      exact ⟨old', new, hnext⟩

theorem FewAstray.advance (hinv : RehashInvariant h) (hastray : FewAstray params h)
    (hadvance : h.advance params = some next) : FewAstray params next := by
  rcases advance_ways hinv hadvance with ⟨hsome, hrehash⟩ | ⟨-, hneed, hrehash⟩ | ⟨-, -, rfl⟩
  · exact hastray.rehash hinv (fun hnone => absurd hnone hsome) hrehash
  · exact hastray.rehash hinv (fun _ => .inl hneed) hrehash
  · exact hastray

theorem FewAstray.complete (hinv : RehashInvariant h) (hastray : FewAstray params h)
    (hcomplete : h.complete params = some next) : FewAstray params next := by
  rcases complete_cases hcomplete with ⟨hbusy, hrehash⟩ | ⟨-, rfl⟩
  · refine hastray.rehash hinv (fun hnone => ?_) hrehash
    rw [hinv.isReHashing_of_none hnone] at hbusy
    cases hbusy
  · exact hastray

/-! ## The insertion and the removal -/

theorem OneAstray.put {index : Nat} {value : T} (hinv : RehashInvariant h)
    (hindex : index < h.mBucketsNumber) (hastray : OneAstray params old new h)
    (hput : Put h index value next)
    (hnode : ∀ addr, (h.mBackup = none → addr = old) → (h.mBackup ≠ none → addr = new) →
      HomeBut params addr h.mBucketsNumber index ⟨h.newAddr, value⟩) :
    OneAstray params old new next := by
  rw [← hinv.target_number] at hindex hnode
  cases hput with
  | @backup backup hbusy hbackup =>
      rw [hbackup, Option.getD_some] at hindex
      refine ⟨hastray.active, fun table h0 => ?_⟩
      cases h0
      refine (HashTable.placed_insertNode hindex (hastray.backup backup hbackup)).mpr ?_
      simpa [hbackup] using hnode new (by simp [hbackup]) fun _ => rfl
  | active hidle =>
      have hbackup := hinv.none_of_isReHashing hidle
      rw [hbackup, Option.getD_none] at hindex
      refine ⟨(HashTable.placed_insertNode hindex hastray.active).mpr ?_, hastray.backup⟩
      simpa [hbackup] using hnode old (fun _ => rfl) (by simp [hbackup])

theorem FewAstray.cut {node : HashNode T} (hastray : FewAstray params h)
    (hcut : Cut h node next) : FewAstray params next := by
  obtain ⟨old, new, hastray⟩ := hastray
  refine ⟨old, new, ?_⟩
  cases hcut with
  | backup hbackup hunlinked =>
      refine ⟨hastray.active, fun table h0 => ?_⟩
      cases h0
      exact (hastray.backup _ hbackup).of_sublist hunlinked.buckets hunlinked.chains
  | active hunlinked =>
      exact ⟨hastray.active.of_sublist hunlinked.buckets hunlinked.chains, hastray.backup⟩

/-- The bucket of a key under the old mask is its home in the doubled table, or lies half
of that table before it. -/
theorem index_of_double {count : Nat} (hcount : IsBucketCount count) (key : K) :
    params.index (2 * count - 1) key = params.index (count - 1) key ∨
      params.index (2 * count - 1) key = params.index (count - 1) key + count := by
  obtain ⟨k, -, rfl⟩ := hcount
  rw [show 2 * 2 ^ k = 2 ^ (k + 1) by rw [Nat.pow_succ]; omega, HashParams.index,
    HashParams.index, Nat.and_two_pow_sub_one_eq_mod, Nat.and_two_pow_sub_one_eq_mod,
    Nat.mod_pow_succ]
  rcases Nat.mod_two_eq_zero_or_one ((params.mHasher key).toNat / 2 ^ k) with hzero | hone
  · simp [hzero]
  · simp [hone]

/-- Filing the new node at home keeps the other nodes where they are. -/
theorem FewAstray.put {index : Nat} {value : T} (hinv : RehashInvariant h)
    (hindex : index < h.mBucketsNumber) (hastray : FewAstray params h)
    (hhome : params.home (h.mBucketsNumber - 1) ⟨h.newAddr, value⟩ = index)
    (hput : Put h index value next) : FewAstray params next := by
  obtain ⟨old, new, hastray⟩ := hastray
  exact ⟨old, new, hastray.put hinv hindex hput fun _ _ _ => Or.inl hhome⟩

/-- The insertion that starts an expansion may file its node astray: no other node of the
new table is. -/
theorem FewAstray.put_expanding {middle : Hash T} {value : T} (hinv : RehashInvariant h)
    (hpaced : Paced params.factors 1 h) (hastray : FewAstray params h)
    (hidle : h.mBackup = none) (hneed : h.isNeedReHash params = true)
    (hadvance : h.advance params = some middle)
    (hput : Put middle (params.index h.mBucketsMask (params.getKey value)) value next) :
    FewAstray params next := by
  obtain ⟨old, new, hastray⟩ := hastray
  have hmiddle := rehashed_of_advance hinv hadvance
  have hnumber := number_of_advance hinv hpaced hadvance
  rw [if_pos ⟨hinv.isReHashing_of_none hidle, hneed⟩] at hnumber
  rcases advance_ways hinv hadvance with ⟨hsome, -⟩ | ⟨-, -, hrehash⟩ | ⟨-, hkeeps, -⟩
  · exact absurd hidle hsome
  · obtain ⟨old', hfirst, hends⟩ :=
      hastray.start hinv hidle (.inl hneed) h.newAddr hrehash
    refine ⟨old', h.newAddr, hfirst.put hmiddle.invariant ?_ hput fun addr hactive hbackup => ?_⟩
    · exact Nat.lt_of_lt_of_le (hinv.index_lt params _) (number_le_of_advance hinv hadvance)
    · have haddr : addr = h.newAddr := by
        cases hmode : middle.mBackup with
        | none => rw [hactive hmode, hends hmode]
        | some backup => exact hbackup (by simp [hmode])
      rw [hnumber, hinv.mask, hmiddle.newAddr, haddr]
      rcases index_of_double hinv.number_count (params.getKey value) with hsame | hlater
      · exact Or.inl hsame
      · right
        rw [Nat.mul_div_cancel_left _ (by decide)]
        exact ⟨rfl, hlater⟩
  · rw [hneed] at hkeeps
    cases hkeeps

section Calls

variable [DecidableEq K]

theorem fewAstray_step {call : HashCall K T} {answer : HashAnswer T} (hinv : RehashInvariant h)
    (hpaced : Paced params.factors 1 h) (hastray : FewAstray params h)
    (hstep : hashStep params h call = some (next, answer)) : FewAstray params next := by
  cases hashStep_effect hstep with
  | @insert value middle next hadvance hput =>
      have hmiddle := rehashed_of_advance hinv hadvance
      by_cases hstarts : h.isReHashing = false ∧ h.isNeedReHash params = true
      · exact hastray.put_expanding hinv hpaced (hinv.none_of_isReHashing hstarts.1) hstarts.2
          hadvance hput
      · have hnumber := number_of_advance hinv hpaced hadvance
        rw [if_neg hstarts] at hnumber
        refine (hastray.advance hinv hadvance).put hmiddle.invariant ?_ ?_ hput
        · rw [hnumber]
          exact hinv.index_lt params (params.getKey value)
        · rw [hnumber, hinv.mask, HashParams.home]
  | @erase key middle cut next status hadvance hcut hlast =>
      have hmiddle := (rehashed_of_advance hinv hadvance).invariant
      have hfirst := hastray.advance hinv hadvance
      rcases erase_ways hmiddle hcut hlast with
        ⟨rfl, rfl⟩ | ⟨rfl, node, -, hnode, -⟩ | ⟨rfl, node, -, hnode, hshrink, hrehash⟩
      · exact hfirst
      · exact hfirst.cut hnode
      · exact (hfirst.cut hnode).rehash (cut_spec hmiddle hnode).1 (fun _ => .inr hshrink) hrehash
  | lookup _ hadvance => exact hastray.advance hinv hadvance
  | iterator _ hcomplete => exact hastray.complete hinv hcomplete
  | scan => exact hastray

theorem reachable_fewAstray (params : HashParams K T) {h : Hash T}
    (hreach : (hashMachine params).Reachable h) : FewAstray params h := by
  have hkeep : ∀ state call next answer,
      ((RehashInvariant state ∧ Paced params.factors 1 state) ∧ FewAstray params state) →
      (hashMachine params).step state call = some (next, answer) →
      (RehashInvariant next ∧ Paced params.factors 1 next) ∧ FewAstray params next :=
    fun state call next answer hall hstep =>
      ⟨invariants_step params state call next answer hall.1 hstep,
        fewAstray_step hall.1.1 hall.1.2 hall.2 hstep⟩
  exact (hreach.invariant ⟨⟨RehashInvariant.new, Paced.new params.factors⟩,
    0, 0, oneAstray_new params 0 0⟩ hkeep).2

/-- A table in use has one node at most out of its home bucket, half the table before it. -/
def NearlyHome (params : HashParams K T) (table : HashTable T) : Prop :=
  (table.astray params).length ≤ 1 ∧
    ∀ index, ∀ node ∈ table.getBucketHead index,
      params.home (table.mBucketsNumber - 1) node = index ∨
        params.home (table.mBucketsNumber - 1) node = index + table.mBucketsNumber / 2

omit [DecidableEq K] in
theorem nearlyHome_of_placed {addr : Nat} {table : HashTable T}
    (hplaced : table.Placed (HomeBut params addr))
    (hnodup : (table.entries.map HashNode.addr).Nodup) : NearlyHome params table :=
  ⟨length_astray_le hplaced hnodup, fun index node hnode =>
    (hplaced index node hnode).imp_right And.right⟩

theorem reachable_nearlyHome (params : HashParams K T) {h : Hash T}
    (hreach : (hashMachine params).Reachable h) :
    ∀ table ∈ h.tables, NearlyHome params table := by
  obtain ⟨old, new, hactive, hbackup⟩ := reachable_fewAstray params hreach
  have hnodup := reachable_addrs params hreach
  rw [entries, List.map_append, List.nodup_append] at hnodup
  intro table htable
  rw [tables, List.mem_cons, Option.mem_toList] at htable
  rcases htable with rfl | hmode
  · exact nearlyHome_of_placed hactive hnodup.1
  · apply nearlyHome_of_placed (hbackup table hmode)
    simpa [Option.mem_def.mp hmode] using hnodup.2.1

/-- The run that files the key `5` in bucket `1` of eight leaves just that node astray. -/
theorem reachable_nearlyHome_misfiling :
    (misfiling.mBackup.map fun backup =>
        (backup.astray HashParams.identity).map HashNode.mValue) = some [(5, 5)] ∧
      ∀ table ∈ misfiling.tables, NearlyHome HashParams.identity table :=
  ⟨by decide, reachable_nearlyHome HashParams.identity (Machine.reachable_stateAfter _ _ _)⟩

/-! ## Chains of nearly home tables -/

omit [DecidableEq K] in
/-- All nodes of a chain but one at most are at home in it. -/
theorem NearlyHome.length_chain_le {table : HashTable T} (hnearly : NearlyHome params table)
    (index : Nat) :
    (table.getBucketHead index).length ≤
      ((table.getBucketHead index).filter fun node =>
        params.home (table.mBucketsNumber - 1) node = index).length + 1 := by
  have haway : ((table.getBucketHead index).filter fun node =>
      !decide (params.home (table.mBucketsNumber - 1) node = index)).length ≤ 1 := by
    by_cases hlt : index < table.mBucketsNumber
    · refine Nat.le_trans (List.Sublist.length_le ?_) hnearly.1
      rw [HashTable.astray, List.flatMap_def]
      refine List.sublist_flatten_of_mem ?_
      exact List.mem_map.mpr ⟨index, List.mem_range.mpr hlt, by simp⟩
    · have hnil : table.getBucketHead index = [] :=
        List.eq_nil_iff_forall_not_mem.mpr fun _ hnode =>
          hlt (HashTable.lt_of_mem_getBucketHead hnode)
      simp [hnil]
  have hsplit := List.length_eq_length_filter_add (l := table.getBucketHead index)
    fun node => decide (params.home (table.mBucketsNumber - 1) node = index)
  omega

omit [DecidableEq K] in
theorem sublist_of_mem_tables {table : HashTable T} (htable : table ∈ h.tables) :
    table.entries.Sublist h.entries := by
  rw [tables, List.mem_cons, Option.mem_toList] at htable
  rw [entries]
  rcases htable with rfl | hmode
  · exact List.sublist_append_left _ _
  · rw [hmode]
    exact List.sublist_append_right _ _

omit [DecidableEq K] in
/-- The nodes of one home bucket lie in its chain, but for one at most. -/
theorem NearlyHome.length_le_chain {table : HashTable T} (hnearly : NearlyHome params table)
    {index : Nat} {nodes : List (HashNode T)} (hnodup : nodes.Nodup)
    (hnodes : ∀ node ∈ nodes, node ∈ table.entries ∧
      params.home (table.mBucketsNumber - 1) node = index) :
    nodes.length ≤ (table.getBucketHead index).length + 1 := by
  have hsubset : nodes ⊆ table.getBucketHead index ++ table.astray params := by
    intro node hnode
    obtain ⟨hentry, hhome⟩ := hnodes node hnode
    obtain ⟨other, hother⟩ := HashTable.mem_entries.mp hentry
    rw [List.mem_append]
    by_cases hsame : other = index
    · exact .inl (hsame ▸ hother)
    · refine .inr (HashTable.mem_astray.mpr ⟨other, hother, fun haway => hsame ?_⟩)
      rw [← haway, hhome]
  have hlength := (List.subperm_of_subset hnodup hsubset).length_le
  rw [List.length_append] at hlength
  have hastray := hnearly.1
  omega

end Calls

end Hash

end RedisDB
