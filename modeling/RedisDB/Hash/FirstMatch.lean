import RedisDB.Hash.Addresses
import RedisDB.Hash.Order

/-!
# The first match

Lookups read the home bucket of a key in the new table and then the one in the
old table, and stop at the first node of the key.  With all nodes at home these
two buckets hold every node of the key.  A move puts the nodes of the old bucket
in front of the new one, the last of them first, so another node of the key may
become the first.
-/

namespace RedisDB

open RedisDB.Library

variable {K T : Type} [DecidableEq K]

/-- The nodes of a key, in the order of a list. -/
def HashParams.nodesOf (params : HashParams K T) (key : K) (nodes : List (HashNode T)) :
    List (HashNode T) :=
  nodes.filter fun node => params.getKey node.mValue = key

theorem HashParams.mem_nodesOf {params : HashParams K T} {key : K} {nodes : List (HashNode T)}
    {node : HashNode T} :
    node ∈ params.nodesOf key nodes ↔ node ∈ nodes ∧ params.getKey node.mValue = key := by
  rw [nodesOf, List.mem_filter, decide_eq_true_eq]

theorem HashParams.nodesOf_append (params : HashParams K T) (key : K)
    (first second : List (HashNode T)) :
    params.nodesOf key (first ++ second) =
      params.nodesOf key first ++ params.nodesOf key second :=
  List.filter_append ..

namespace HashTable

theorem walk_eq_head? (params : HashParams K T) (key : K) (chain : List (HashNode T)) :
    walk params.getKey key chain = (params.nodesOf key chain).head? := by
  induction chain with
  | nil => rfl
  | cons head rest ih =>
      rw [walk, HashParams.nodesOf, List.filter_cons]
      split
      · rename_i hkey
        rw [if_pos (decide_eq_true hkey)]
        rfl
      · rename_i hkey
        rw [if_neg (by simpa using hkey)]
        exact ih

end HashTable

namespace Hash

/-- The search of a key through its home buckets: the first match in the new table, if
there is one, else in the old. -/
def firstMatch (params : HashParams K T) (h : Hash T) (key : K) : Option (HashNode T) :=
  match h.mBackup with
  | some backup =>
      (HashTable.walk params.getKey key
        (backup.getBucketHead (params.index (backup.mBucketsNumber - 1) key))).or
        (HashTable.walk params.getKey key
          (h.mActive.getBucketHead (params.index (h.mActive.mBucketsNumber - 1) key)))
  | none =>
      HashTable.walk params.getKey key
        (h.mActive.getBucketHead (params.index (h.mActive.mBucketsNumber - 1) key))

/-! ## The nodes of a key -/

/-- The nodes of the key in its home bucket. -/
def homeNodes (params : HashParams K T) (table : HashTable T) (key : K) : List (HashNode T) :=
  params.nodesOf key (table.getBucketHead (params.index (table.mBucketsNumber - 1) key))

/-- The nodes of the key in the order in which a search meets them. -/
def readNodes (params : HashParams K T) (h : Hash T) (key : K) : List (HashNode T) :=
  h.mBackup.elim [] (fun backup => homeNodes params backup key) ++ homeNodes params h.mActive key

theorem readNodes_of_none {params : HashParams K T} {h : Hash T} (hbackup : h.mBackup = none)
    (key : K) : h.readNodes params key = homeNodes params h.mActive key := by
  rw [readNodes, hbackup]
  rfl

theorem readNodes_of_some {params : HashParams K T} {h : Hash T} {backup : HashTable T}
    (hbackup : h.mBackup = some backup) (key : K) :
    h.readNodes params key = homeNodes params backup key ++ homeNodes params h.mActive key := by
  rw [readNodes, hbackup]
  rfl

theorem firstMatch_eq_head? (params : HashParams K T) (h : Hash T) (key : K) :
    h.firstMatch params key = (h.readNodes params key).head? := by
  cases hbackup : h.mBackup with
  | none =>
      rw [firstMatch, hbackup, readNodes_of_none hbackup]
      exact HashTable.walk_eq_head? params key _
  | some backup =>
      rw [firstMatch, hbackup, readNodes_of_some hbackup, List.head?_append]
      simp only [HashTable.walk_eq_head?, homeNodes]

/-- With all nodes at home a row of buckets has the key's nodes in its home bucket only. -/
theorem nodesOf_nodesFrom {params : HashParams K T} {table : HashTable T}
    (hhome : table.Placed fun count index node => params.home (count - 1) node = index)
    (key : K) (index count : Nat) :
    params.nodesOf key (nodesFrom table index count) =
      if index ≤ params.index (table.mBucketsNumber - 1) key ∧
          params.index (table.mBucketsNumber - 1) key < index + count then
        homeNodes params table key
      else [] := by
  have hother : ∀ other, other ≠ params.index (table.mBucketsNumber - 1) key →
      params.nodesOf key (table.getBucketHead other) = [] := by
    intro other hne
    refine List.eq_nil_iff_forall_not_mem.mpr fun node hnode => hne ?_
    obtain ⟨hin, hkey⟩ := HashParams.mem_nodesOf.mp hnode
    rw [← hkey]
    exact (hhome other node hin).symm
  induction count generalizing index with
  | zero => rw [if_neg (by omega)]; rfl
  | succ count ih =>
      rw [nodesFrom_succ, params.nodesOf_append, ih (index + 1)]
      by_cases hsame : index = params.index (table.mBucketsNumber - 1) key
      · rw [if_neg (by omega), if_pos (by omega), List.append_nil, homeNodes, ← hsame]
      · rw [hother index hsame, List.nil_append]
        congr 1
        exact propext (by omega)

/-- All nodes of a key are in its home bucket. -/
theorem nodesOf_entries {params : HashParams K T} {table : HashTable T}
    (hhome : table.Placed fun count index node => params.home (count - 1) node = index)
    (hcount : IsBucketCount table.mBucketsNumber) (key : K) :
    params.nodesOf key table.entries = homeNodes params table key := by
  rw [entries_eq_nodesFrom, nodesOf_nodesFrom hhome, if_pos]
  exact ⟨Nat.zero_le _, by rw [Nat.zero_add]; exact params.index_lt hcount key⟩

/-- A search meets every node of the key once. -/
theorem readNodes_perm {params : HashParams K T} {h : Hash T} (hinv : RehashInvariant h)
    (hhome : AllHome params h) (key : K) :
    (h.readNodes params key).Perm (params.nodesOf key h.entries) := by
  cases hbackup : h.mBackup with
  | none =>
      rw [readNodes_of_none hbackup, entries_of_none hbackup,
        nodesOf_entries hhome.1 hinv.active_count]
  | some backup =>
      rw [readNodes_of_some hbackup, entries_of_some hbackup, params.nodesOf_append,
        nodesOf_entries hhome.1 hinv.active_count,
        nodesOf_entries (hhome.2 backup hbackup) (hinv.backup_count backup hbackup)]
      exact List.perm_append_comm

theorem length_readNodes {params : HashParams K T} {h : Hash T} (hinv : RehashInvariant h)
    (hhome : AllHome params h) (key : K) :
    (h.readNodes params key).length = (h.keys params).count key := by
  rw [(readNodes_perm hinv hhome key).length_eq, HashParams.nodesOf, keys, List.count,
    List.countP_map, List.countP_eq_length_filter]
  congr 2

/-! ## One `rehash` call -/

theorem homeNodes_released (params : HashParams K T) {active next : HashTable T}
    {index count : Nat} (hreleased : Released active next index count) (key : K) :
    homeNodes params next key =
      if index ≤ params.index (active.mBucketsNumber - 1) key ∧
          params.index (active.mBucketsNumber - 1) key < index + count then []
      else homeNodes params active key := by
  rw [homeNodes, hreleased.buckets, hreleased.chains]
  split <;> rfl

/-- The receiving table puts the nodes of the key in front, the last one first. -/
theorem homeNodes_received {params : HashParams K T} {backup next : HashTable T}
    {nodes : List (HashNode T)}
    (hreceived : Received params (backup.mBucketsNumber - 1) nodes backup next) (key : K) :
    homeNodes params next key =
      (params.nodesOf key nodes).reverse ++ homeNodes params backup key := by
  rw [homeNodes, hreceived.buckets, hreceived.chains, params.nodesOf_append]
  congr 1
  rw [HashParams.nodesOf, List.filter_reverse, List.filter_filter]
  congr 1
  refine List.filter_congr fun node _ => ?_
  by_cases hkey : params.getKey node.mValue = key
  · simp [HashParams.home, hkey]
  · simp [hkey]

/-- Where the key's old bucket is among those moved, its nodes come first in the opposite
order; else the search meets the same nodes as before. -/
theorem readNodes_rehash {params : HashParams K T} {h next : Hash T} {backup : HashTable T}
    {index step : Nat} {isAuto : Bool} (hinv : RehashInvariant h) (hhome : AllHome params h)
    (hbusy : h.Busy backup index) (hindex : index < h.mActive.mBucketsNumber)
    (hrehash : h.rehash params step isAuto = some next) (key : K) :
    next.readNodes params key =
      if index ≤ params.index (h.mActive.mBucketsNumber - 1) key ∧
          params.index (h.mActive.mBucketsNumber - 1) key <
            h.nextIndex backup index step isAuto then
        (homeNodes params h.mActive key).reverse ++ homeNodes params backup key
      else h.readNodes params key := by
  have hbackup := hbusy.backup_eq
  obtain ⟨active, received, hreleased, hreceived, hresult⟩ :=
    rehash_of_busy step isAuto hbusy hindex (hinv.home_lt params hbackup)
  have hle := le_nextIndex backup step isAuto hindex
  generalize h.nextIndex backup index step isAuto = last at *
  have hrange : index + (last - index) = last := Nat.add_sub_cancel' hle
  rw [hinv.mask, ← (hinv.busy backup hbackup).number] at hreceived
  have hold := homeNodes_released params hreleased key
  have hnew := homeNodes_received hreceived key
  rw [nodesOf_nodesFrom hhome.1, hrange] at hnew
  rw [hrange] at hold
  rw [hresult] at hrehash
  rw [← Option.some.inj hrehash]
  by_cases hmoved : index ≤ params.index (h.mActive.mBucketsNumber - 1) key ∧
      params.index (h.mActive.mBucketsNumber - 1) key < last
  · rw [if_pos hmoved] at hold hnew ⊢
    split
    · rw [readNodes_of_none (h := h.swappedState received _) rfl]
      exact hnew
    · rw [readNodes_of_some (h := h.movedState active received last) rfl, hnew]
      exact (congrArg _ hold).trans (List.append_nil _)
  · rw [if_neg hmoved] at hold hnew ⊢
    rw [readNodes_of_some hbackup]
    split
    · rename_i hend
      -- the bucket was moved earlier: nothing of the key is left in the old table
      have hlt := params.index_lt hinv.active_count key
      have hempty := (hinv.busy backup hbackup).emptied
        (params.index (h.mActive.mBucketsNumber - 1) key) (by rw [hbusy.index_eq]; omega)
      have hnone : homeNodes params h.mActive key = [] := by
        rw [homeNodes, hempty]
        rfl
      rw [readNodes_of_none (h := h.swappedState received _) rfl, hnone, List.append_nil]
      exact hnew
    · rw [readNodes_of_some (h := h.movedState active received last) rfl, hnew]
      exact congrArg _ hold

/-- The bucket of the old table is among those that a call of `rehash` moves, once it has
made sure that a rehash is in progress. -/
def MovesBucket (h : Hash T) (step : Nat) (isAuto : Bool) (bucket : Nat) : Prop :=
  ∃ started backup index,
    (if h.mRehashIndex = -1 then h.startReHashing else some h) = some started ∧
      started.Busy backup index ∧ index ≤ bucket ∧
      bucket < started.nextIndex backup index step isAuto

omit [DecidableEq K] in
theorem movesBucket_of_busy {h : Hash T} {backup : HashTable T} {index : Nat} (step : Nat)
    (isAuto : Bool) (bucket : Nat) (hbusy : h.Busy backup index) :
    MovesBucket h step isAuto bucket ↔
      index ≤ bucket ∧ bucket < h.nextIndex backup index step isAuto := by
  have hne : ¬ h.mRehashIndex = -1 := by
    rw [hbusy.index_eq]
    omega
  constructor
  · rintro ⟨started, backup', index', hstart, hbusy', hlow, hhigh⟩
    rw [if_neg hne] at hstart
    cases hstart
    cases hbusy.backup_eq.symm.trans hbusy'.backup_eq
    obtain rfl := hbusy.eq_of_index hbusy'.index_eq
    exact ⟨hlow, hhigh⟩
  · rintro ⟨hlow, hhigh⟩
    exact ⟨h, backup, index, if_neg hne, hbusy, hlow, hhigh⟩

omit [DecidableEq K] in
theorem movesBucket_of_idle {h : Hash T} {table : HashTable T} (step : Nat) (isAuto : Bool)
    (bucket : Nat) (hidle : h.mRehashIndex = -1)
    (hstart : h.startReHashing = some (h.startedState table)) :
    MovesBucket h step isAuto bucket ↔ MovesBucket (h.startedState table) step isAuto bucket := by
  have hne : ¬ (h.startedState table).mRehashIndex = -1 := by simp [startedState]
  simp only [MovesBucket, if_pos hidle, if_neg hne, hstart]

/-- A move keeps the first match of a key exactly when it leaves the key's nodes where they
are or there is at most one. -/
theorem firstMatch_rehash_busy {params : HashParams K T} {h next : Hash T}
    {backup : HashTable T} {step : Nat} {isAuto : Bool} (hsound : Sound params h)
    (hbackup : h.mBackup = some backup) (hrehash : h.rehash params step isAuto = some next)
    (key : K) :
    (next.firstMatch params key).isSome = (h.firstMatch params key).isSome ∧
      (next.firstMatch params key = h.firstMatch params key ↔
        (h.keys params).count key ≤ 1 ∨
          ∀ node ∈ h.mActive.entries, params.getKey node.mValue = key →
            ¬ MovesBucket h step isAuto (params.home (h.mActive.mBucketsNumber - 1) node)) := by
  have hinv := hsound.invariant
  obtain ⟨index, hbusy, hindex⟩ := hinv.cursor hbackup
  have hread := readNodes_rehash hinv hsound.home hbusy hindex hrehash key
  have hnodup : (h.readNodes params key).Nodup :=
    (readNodes_perm hinv hsound.home key).nodup_iff.mpr (hsound.nodup.filter _)
  have hmoves : ∀ node : HashNode T, params.getKey node.mValue = key →
      (MovesBucket h step isAuto (params.home (h.mActive.mBucketsNumber - 1) node) ↔
        index ≤ params.index (h.mActive.mBucketsNumber - 1) key ∧
          params.index (h.mActive.mBucketsNumber - 1) key <
            h.nextIndex backup index step isAuto) := fun node hkey => by
    rw [movesBucket_of_busy step isAuto _ hbusy, HashParams.home, hkey]
  rw [firstMatch_eq_head?, firstMatch_eq_head?, ← length_readNodes hinv hsound.home, hread]
  split
  · rename_i hmoved
    rw [readNodes_of_some hbackup] at hnodup ⊢
    refine ⟨?_, ?_⟩
    · rw [Bool.eq_iff_iff, List.isSome_head?, List.isSome_head?]
      simp [and_comm]
    · rw [head?_reverse_append_iff hnodup, or_comm]
      refine or_congr_right ⟨fun hnil node hnode hkey => ?_, fun hstay => ?_⟩
      · have hmem : node ∈ homeNodes params h.mActive key := by
          rw [← nodesOf_entries hsound.home.1 hinv.active_count]
          exact HashParams.mem_nodesOf.mpr ⟨hnode, hkey⟩
        rw [hnil] at hmem
        cases hmem
      · refine List.eq_nil_iff_forall_not_mem.mpr fun node hnode => ?_
        rw [← nodesOf_entries hsound.home.1 hinv.active_count] at hnode
        obtain ⟨hmem, hkey⟩ := HashParams.mem_nodesOf.mp hnode
        exact hstay node hmem hkey ((hmoves node hkey).mpr hmoved)
  · rename_i hstays
    exact ⟨rfl, iff_of_true rfl (.inr fun node _ hkey hmoved =>
      hstays ((hmoves node hkey).mp hmoved))⟩

/-- So does a call that starts the rehash. -/
theorem firstMatch_rehash {params : HashParams K T} {h next : Hash T} {step : Nat}
    {isAuto : Bool} (hsound : Sound params h) (hdue : h.mBackup = none → h.Due params)
    (hrehash : h.rehash params step isAuto = some next) (key : K) :
    (next.firstMatch params key).isSome = (h.firstMatch params key).isSome ∧
      (next.firstMatch params key = h.firstMatch params key ↔
        (h.keys params).count key ≤ 1 ∨
          ∀ node ∈ h.mActive.entries, params.getKey node.mValue = key →
            ¬ MovesBucket h step isAuto (params.home (h.mActive.mBucketsNumber - 1) node)) := by
  cases hbackup : h.mBackup with
  | some backup => exact firstMatch_rehash_busy hsound hbackup hrehash key
  | none =>
      have hinv := hsound.invariant
      have hidle := hinv.idle_of_none hbackup
      rw [rehash_of_idle hidle, Option.bind_eq_some_iff] at hrehash
      obtain ⟨started, hstart, hrest⟩ := hrehash
      obtain ⟨table, rfl, hstarted⟩ := started_spec hinv hbackup (hdue hbackup) hstart
      have hbusy := firstMatch_rehash_busy (hsound.started hstarted) rfl hrest key
      have hempty : homeNodes params table key = [] := by
        rw [homeNodes, hstarted.chains]
        rfl
      have hsame : (h.startedState table).firstMatch params key = h.firstMatch params key := by
        rw [firstMatch_eq_head?, firstMatch_eq_head?, readNodes_of_none hbackup,
          readNodes_of_some (h := h.startedState table) rfl, hempty]
        rfl
      have hkeys : (h.startedState table).keys params = h.keys params := by
        rw [keys, keys, hstarted.contents]
      simp only [movesBucket_of_idle step isAuto _ hidle hstart]
      rw [hsame, hkeys] at hbusy
      exact hbusy

/-- A state in which a call invokes `rehash` is as sound as the one the call began in. -/
theorem Sound.invokes {params : HashParams K T} {h at' : Hash T} {call : HashCall K T}
    {step : Nat} {isAuto : Bool} (hsound : Sound params h)
    (hinvokes : Invokes params h call at' step isAuto) : Sound params at' := by
  cases hinvokes with
  | keyed => exact hsound
  | iterator => exact hsound
  | afterErase hadvance hcut =>
      have hinv := hsound.invariant
      have hmiddle := rehashed_of_advance hinv hadvance
      have hhome := placed_advance (admitsHome_home params) hinv hsound.home hadvance
      rcases eraseKey_effect hmiddle.invariant hcut with ⟨hfalse, -⟩ | ⟨-, node, -, hnode⟩
      · cases hfalse
      · obtain ⟨hcutInv, hperm, -⟩ := cut_spec hmiddle.invariant hnode
        have haddrs := ((hmiddle.contents.symm.trans hperm).map HashNode.addr).nodup_iff.mp
          hsound.addrs
        exact ⟨hcutInv, placed_cut hhome hnode, (List.nodup_cons.mp haddrs).2⟩

/-- Every `rehash` a call invokes keeps which keys are found, and it keeps the entry found
for a key exactly when that key is stored at most once or has no node in the buckets the
call moves. -/
theorem rehash_firstMatch (params : HashParams K T) {h at' next : Hash T}
    {call : HashCall K T} {step : Nat} {isAuto : Bool}
    (hreach : (hashMachine params).Reachable h) (hhome : AllHome params h)
    (hinvokes : Invokes params h call at' step isAuto)
    (hrehash : at'.rehash params step isAuto = some next) (key : K) :
    (next.firstMatch params key).isSome = (at'.firstMatch params key).isSome ∧
      (next.firstMatch params key = at'.firstMatch params key ↔
        (at'.keys params).count key ≤ 1 ∨
          ∀ node ∈ at'.mActive.entries, params.getKey node.mValue = key →
            ¬ MovesBucket at' step isAuto
              (params.home (at'.mActive.mBucketsNumber - 1) node)) := by
  have hsound := reachable_sound hreach hhome
  exact firstMatch_rehash (hsound.invokes hinvokes)
    (invokes_spec hsound.invariant hinvokes).2 hrehash key

/-- Two nodes of key `0`, and the table about to be expanded. -/
def shadowed : Hash (Nat × Nat) :=
  (hashMachine HashParams.identity).stateAfter
    [.insert (0, 0), .insert (0, 1), .insert (1, 1), .insert (2, 2), .insert (3, 3)] (by decide)

theorem rehash_firstMatch_shadowed :
    ∃ next, shadowed.rehash HashParams.identity 2 true = some next ∧
      next.firstMatch HashParams.identity 3 = shadowed.firstMatch HashParams.identity 3 := by
  obtain ⟨next, hrehash⟩ := Option.isSome_iff_exists.mp
    (by decide : (shadowed.rehash HashParams.identity 2 true).isSome = true)
  have hinvokes : Invokes HashParams.identity shadowed (.get 3) shadowed 2 true :=
    .keyed (fun h0 => h0) (fun v h0 => by cases h0) (.inr (by decide))
  have hreach : (hashMachine HashParams.identity).Reachable shadowed :=
    Machine.reachable_stateAfter _ _ _
  exact ⟨next, hrehash,
    (rehash_firstMatch HashParams.identity hreach (by decide) hinvokes hrehash 3).2.mpr
      (.inl (by decide))⟩

/-- The lookup of key `3` starts the expansion, which moves the older node of key `0` in
front of the newer one: what is found for `0` goes from `1` back to `0`. -/
theorem not_firstMatch_kept :
    (hashMachine HashParams.identity).Reachable shadowed ∧
      AllHome HashParams.identity shadowed ∧
      Invokes HashParams.identity shadowed (.get 3) shadowed 2 true ∧
      ∃ next, shadowed.rehash HashParams.identity 2 true = some next ∧
        (shadowed.firstMatch HashParams.identity 0).map HashNode.mValue = some (0, 1) ∧
        (next.firstMatch HashParams.identity 0).map HashNode.mValue = some (0, 0) := by
  refine ⟨Machine.reachable_stateAfter _ _ _, by decide,
    .keyed (fun h0 => h0) (fun v h0 => by cases h0) (.inr (by decide)), ?_⟩
  have hvalues : (shadowed.rehash HashParams.identity 2 true).map (fun next =>
      (next.firstMatch HashParams.identity 0).map HashNode.mValue) = some (some (0, 0)) := by
    decide
  obtain ⟨next, hrehash, hvalue⟩ := Option.map_eq_some_iff.mp hvalues
  exact ⟨next, hrehash, by decide, hvalue⟩

end Hash

end RedisDB
