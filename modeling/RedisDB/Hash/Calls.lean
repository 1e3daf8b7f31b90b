import RedisDB.Hash.Rehash

/-!
# The parts of a call

Every method is a rehash step, at most one change of the tables, and for `erase`
perhaps a second step.  The lemmas take a call that returned apart into these
pieces; the three lookups turn out to search the same node.
-/

namespace RedisDB

open RedisDB.Library

variable {K T : Type}

namespace Hash

/-- A fresh node is put in front of a chain of the given table. -/
def putBackup (h : Hash T) (backup : HashTable T) (index : Nat) (value : T) : Hash T :=
  { h with
    newAddr := h.newAddr + 1
    mBackup := some (backup.insertNode index ⟨h.newAddr, value⟩).1 }

def putActive (h : Hash T) (index : Nat) (value : T) : Hash T :=
  { h with
    newAddr := h.newAddr + 1
    mActive := (h.mActive.insertNode index ⟨h.newAddr, value⟩).1 }

/-- The insertion that follows the rehash step of `insert`. -/
inductive Put (h : Hash T) (index : Nat) (value : T) : Hash T → Prop where
  | backup {backup : HashTable T} (hbusy : h.isReHashing = true)
      (hbackup : h.mBackup = some backup) :
      Put h index value (h.putBackup backup index value)
  | active (hidle : h.isReHashing = false) : Put h index value (h.putActive index value)

/-- The removal in the middle of `erase`. -/
inductive Cut (h : Hash T) (node : HashNode T) : Hash T → Prop where
  | backup {backup next : HashTable T} (hbackup : h.mBackup = some backup)
      (hunlinked : HashTable.Unlinked backup node next) :
      Cut h node { h with mBackup := some next }
  | active {next : HashTable T} (hunlinked : HashTable.Unlinked h.mActive node next) :
      Cut h node { h with mActive := next }

theorem complete_cases {params : HashParams K T} {h next : Hash T}
    (hcomplete : h.complete params = some next) :
    (h.isReHashing = true ∧ h.rehash params h.mActive.mBucketsNumber false = some next) ∨
      (h.isReHashing = false ∧ next = h) := by
  rw [complete] at hcomplete
  cases hbusy : h.isReHashing with
  | true =>
      rw [hbusy, if_pos rfl] at hcomplete
      exact .inl ⟨rfl, hcomplete⟩
  | false =>
      rw [hbusy] at hcomplete
      cases hcomplete
      exact .inr ⟨rfl, rfl⟩

theorem advance_cases {params : HashParams K T} {h next : Hash T}
    (hadvance : h.advance params = some next) :
    ((h.isReHashing = true ∨ h.isNeedReHash params = true) ∧
        h.rehash params 2 true = some next) ∨
      (h.isReHashing = false ∧ h.isNeedReHash params = false ∧ next = h) := by
  rw [advance] at hadvance
  cases hbusy : h.isReHashing with
  | true =>
      rw [hbusy, Bool.true_or, if_pos rfl] at hadvance
      exact .inl ⟨.inl rfl, hadvance⟩
  | false =>
      cases hneed : h.isNeedReHash params with
      | true =>
          rw [hbusy, hneed, Bool.or_true, if_pos rfl] at hadvance
          exact .inl ⟨.inr rfl, hadvance⟩
      | false =>
          rw [hbusy, hneed] at hadvance
          cases hadvance
          exact .inr ⟨rfl, rfl, rfl⟩

theorem insertEntry_cases {params : HashParams K T} {h next : Hash T} {value : T}
    (hinsert : h.insertEntry params value = some next) :
    ∃ middle, h.advance params = some middle ∧
      Put middle (params.index h.mBucketsMask (params.getKey value)) value next := by
  simp only [insertEntry, Option.bind_eq_bind, Option.bind_eq_some_iff] at hinsert
  obtain ⟨middle, hadvance, hrest⟩ := hinsert
  refine ⟨middle, hadvance, ?_⟩
  have hsame : ({ middle with newAddr := middle.newAddr + 1 } : Hash T).isReHashing =
      middle.isReHashing := rfl
  rw [hsame] at hrest
  cases hbusy : middle.isReHashing with
  | true =>
      rw [hbusy, if_pos rfl] at hrest
      obtain ⟨backup, hbackup, hnext⟩ := Option.bind_eq_some_iff.mp hrest
      cases hnext
      exact .backup hbusy hbackup
  | false =>
      rw [hbusy] at hrest
      cases hrest
      exact .active hbusy

section Lookup

variable [DecidableEq K]

theorem erase_cases {params : HashParams K T} {h next : Hash T} {key : K} {status : Bool}
    (herase : h.erase params key = some (next, status)) :
    ∃ middle cut, h.advance params = some middle ∧
      middle.eraseKey params (params.index h.mBucketsMask key) key = some (cut, status) ∧
      ((status = true ∧ cut.isNeedShrink params = true ∧
          cut.rehash params 2 true = some next) ∨
        ((status && cut.isNeedShrink params) = false ∧ next = cut)) := by
  simp only [erase, Option.bind_eq_bind, Option.bind_eq_some_iff] at herase
  obtain ⟨middle, hadvance, ⟨cut, found⟩, hcut, hrest⟩ := herase
  refine ⟨middle, cut, hadvance, ?_⟩
  dsimp only at hrest
  split at hrest
  · rename_i hshrink
    obtain ⟨last, hlast, hnext⟩ := Option.bind_eq_some_iff.mp hrest
    cases hnext
    rw [Bool.and_eq_true] at hshrink
    exact ⟨hcut, .inl ⟨hshrink.1, hshrink.2, hlast⟩⟩
  · rename_i hshrink
    cases hrest
    exact ⟨hcut, .inr ⟨Bool.eq_false_iff.mpr hshrink, rfl⟩⟩

/-- An `erase` whose parts are known. -/
theorem erase_of_eraseKey {params : HashParams K T} {h middle cut : Hash T} {key : K}
    {status : Bool} (hadvance : h.advance params = some middle)
    (hcut : middle.eraseKey params (params.index h.mBucketsMask key) key = some (cut, status)) :
    h.erase params key =
      if status && cut.isNeedShrink params then
        (cut.rehash params 2 true).map fun next => (next, status)
      else some (cut, status) := by
  rw [erase, hadvance, Option.bind_eq_bind, Option.bind_some, hcut, Option.bind_eq_bind,
    Option.bind_some, Option.map_eq_bind]
  rfl

/-- The node every lookup is after: the first match in the new table's bucket, else
in the old table's. -/
def lookup (params : HashParams K T) (h : Hash T) (index : Nat) (key : K) :
    Option (HashNode T) :=
  match h.mBackup with
  | some backup =>
      (HashTable.walk params.getKey key (backup.getBucketHead index)).or
        (HashTable.walk params.getKey key
          (h.mActive.getBucketHead (params.index (h.mActive.mBucketsNumber - 1) key)))
  | none => HashTable.walk params.getKey key (h.mActive.getBucketHead index)

theorem lookup_of_backup {params : HashParams K T} {h : Hash T} {backup : HashTable T}
    (hbackup : h.mBackup = some backup) (index : Nat) (key : K) :
    h.lookup params index key =
      (HashTable.walk params.getKey key (backup.getBucketHead index)).or
        (HashTable.walk params.getKey key
          (h.mActive.getBucketHead (params.index (h.mActive.mBucketsNumber - 1) key))) := by
  rw [lookup, hbackup]

theorem lookup_of_none {params : HashParams K T} {h : Hash T} (hbackup : h.mBackup = none)
    (index : Nat) (key : K) :
    h.lookup params index key =
      HashTable.walk params.getKey key (h.mActive.getBucketHead index) := by
  rw [lookup, hbackup]

/-- A lookup only finds nodes of its key, stored in one of the tables. -/
theorem lookup_eq_some {params : HashParams K T} {h : Hash T} {index : Nat} {key : K}
    {node : HashNode T} (hlookup : h.lookup params index key = some node) :
    params.getKey node.mValue = key ∧ node ∈ h.entries := by
  cases hbackup : h.mBackup with
  | none =>
      rw [lookup_of_none hbackup] at hlookup
      obtain ⟨hkey, hmem⟩ := HashTable.walk_eq_some hlookup
      exact ⟨hkey, List.mem_append_left _ (HashTable.mem_entries.mpr ⟨_, hmem⟩)⟩
  | some backup =>
      rw [lookup_of_backup hbackup, Option.or_eq_some_iff] at hlookup
      rcases hlookup with hnew | ⟨-, hold⟩
      · obtain ⟨hkey, hmem⟩ := HashTable.walk_eq_some hnew
        refine ⟨hkey, List.mem_append_right _ ?_⟩
        rw [hbackup]
        exact HashTable.mem_entries.mpr ⟨_, hmem⟩
      · obtain ⟨hkey, hmem⟩ := HashTable.walk_eq_some hold
        exact ⟨hkey, List.mem_append_left _ (HashTable.mem_entries.mpr ⟨_, hmem⟩)⟩

/-- The middle of `erase` cuts the node looked up, or leaves the state as it is. -/
theorem eraseKey_spec (params : HashParams K T) {h : Hash T} (index : Nat) (key : K)
    (hbusy : h.isReHashing = h.mBackup.isSome) :
    (h.lookup params index key = none ∧
        h.eraseKey params index key = some (h, false)) ∨
      ∃ node next, h.lookup params index key = some node ∧ Cut h node next ∧
        h.eraseKey params index key = some (next, true) := by
  cases hbackup : h.mBackup with
  | none =>
      rw [hbackup] at hbusy
      rw [lookup_of_none hbackup, eraseKey, hbusy]
      cases hwalk : HashTable.walk params.getKey key (h.mActive.getBucketHead index) with
      | none =>
          rw [HashTable.eraseNode_of_walk_none hwalk]
          exact .inl ⟨rfl, rfl⟩
      | some node =>
          obtain ⟨next, herase, hunlinked⟩ := HashTable.eraseNode_spec hwalk
          rw [herase]
          exact .inr ⟨node, _, rfl, .active hunlinked, rfl⟩
  | some backup =>
      rw [hbackup] at hbusy
      rw [lookup_of_backup hbackup, eraseKey, hbusy, hbackup]
      cases hwalk : HashTable.walk params.getKey key (backup.getBucketHead index) with
      | some node =>
          obtain ⟨next, herase, hunlinked⟩ := HashTable.eraseNode_spec hwalk
          refine .inr ⟨node, _, by simp, .backup hbackup hunlinked, ?_⟩
          simp [herase]
      | none =>
          have hmiss := HashTable.eraseNode_of_walk_none hwalk
          cases hold : HashTable.walk params.getKey key (h.mActive.getBucketHead
              (params.index (h.mActive.mBucketsNumber - 1) key)) with
          | none =>
              have hmissOld := HashTable.eraseNode_of_walk_none hold
              refine .inl ⟨by simp, ?_⟩
              simp only [hmiss, hmissOld, Option.isSome_some, if_true, Option.bind_eq_bind,
                Option.bind_some, Bool.false_eq_true, if_false]
              rw [← hbackup]
          | some node =>
              obtain ⟨next, herase, hunlinked⟩ := HashTable.eraseNode_spec hold
              refine .inr ⟨node, _, by simp, .active hunlinked, ?_⟩
              simp [hmiss, herase, hbackup]

/-- `isExist` answers whether the lookup finds a node. -/
theorem isExist_spec {params : HashParams K T} {h middle : Hash T} {key : K}
    (hadvance : h.advance params = some middle)
    (hbusy : middle.isReHashing = middle.mBackup.isSome) :
    h.isExist params key = some (middle,
      (middle.lookup params (params.index h.mBucketsMask key) key).isSome) := by
  rw [isExist, hadvance, Option.bind_eq_bind, Option.bind_some]
  cases hbackup : middle.mBackup with
  | none =>
      rw [hbackup] at hbusy
      rw [lookup_of_none hbackup, hbusy, ← HashTable.isExist_eq_walk]
      rfl
  | some backup =>
      rw [hbackup] at hbusy
      rw [lookup_of_backup hbackup, hbusy, Option.isSome_or, ← HashTable.isExist_eq_walk,
        ← HashTable.isExist_eq_walk]
      cases hfound : backup.isExist params.getKey (params.index h.mBucketsMask key) key <;>
        simp [hfound]

/-- `get` finds the node looked up, when its two reads stay inside the arrays. -/
theorem find_spec {params : HashParams K T} {h middle : Hash T} {key : K}
    (hadvance : h.advance params = some middle)
    (hbusy : middle.isReHashing = middle.mBackup.isSome)
    (hindex : params.index h.mBucketsMask key <
      (middle.mBackup.getD middle.mActive).mBucketsNumber)
    (hactive : IsBucketCount middle.mActive.mBucketsNumber) :
    h.find params key =
      some (middle, middle.lookup params (params.index h.mBucketsMask key) key) := by
  rw [find, hadvance, Option.bind_eq_bind, Option.bind_some]
  cases hbackup : middle.mBackup with
  | none =>
      rw [hbackup] at hbusy hindex
      have hget := HashTable.get_of_lt params.getKey key hindex
      simp only [Option.getD_none] at hget
      simp [lookup_of_none hbackup, hbusy, hget]
  | some backup =>
      rw [hbackup] at hbusy hindex
      have hget := HashTable.get_of_lt params.getKey key hindex
      have hold := HashTable.get_of_lt params.getKey key
        (params.index_lt hactive key)
      simp only [Option.getD_some] at hget
      rw [lookup_of_backup hbackup, hbusy]
      cases hwalk : HashTable.walk params.getKey key
          (backup.getBucketHead (params.index h.mBucketsMask key)) <;>
        simp [hget, hwalk, hold]

/-- Whatever `isExist` and `get` answer, they leave the state of the rehash step. -/
theorem isExist_state {params : HashParams K T} {h next : Hash T} {key : K} {status : Bool}
    (hexist : h.isExist params key = some (next, status)) : h.advance params = some next := by
  simp only [isExist, Option.bind_eq_bind, Option.bind_eq_some_iff] at hexist
  obtain ⟨middle, hadvance, hrest⟩ := hexist
  split at hrest
  · obtain ⟨backup, -, hrest⟩ := Option.bind_eq_some_iff.mp hrest
    split at hrest <;> cases hrest <;> exact hadvance
  · cases hrest
    exact hadvance

theorem find_state {params : HashParams K T} {h next : Hash T} {key : K}
    {node : Option (HashNode T)} (hfind : h.find params key = some (next, node)) :
    h.advance params = some next := by
  simp only [find, Option.bind_eq_bind, Option.bind_eq_some_iff] at hfind
  obtain ⟨middle, hadvance, hrest⟩ := hfind
  split at hrest
  · obtain ⟨backup, -, hrest⟩ := Option.bind_eq_some_iff.mp hrest
    obtain ⟨found, -, hrest⟩ := Option.bind_eq_some_iff.mp hrest
    cases found with
    | some found => cases hrest; exact hadvance
    | none =>
        obtain ⟨older, -, hrest⟩ := Option.bind_eq_some_iff.mp hrest
        cases hrest
        exact hadvance
  · obtain ⟨found, -, hrest⟩ := Option.bind_eq_some_iff.mp hrest
    cases hrest
    exact hadvance

end Lookup

/-! ## Iterator methods only complete the rehash -/

theorem beginIter_state {params : HashParams K T} {h next : Hash T}
    {node : Option (HashNode T)} (hbegin : h.beginIter params = some (next, node)) :
    h.complete params = some next := by
  simp only [beginIter, Option.bind_eq_bind, Option.bind_eq_some_iff] at hbegin
  obtain ⟨middle, hcomplete, hrest⟩ := hbegin
  split at hrest
  · cases hrest
  · cases hrest
    exact hcomplete

theorem endIter_state {params : HashParams K T} {h next : Hash T}
    {node : Option (HashNode T)} (hend : h.endIter params = some (next, node)) :
    h.complete params = some next := by
  simp only [endIter, Option.bind_eq_bind, Option.bind_eq_some_iff] at hend
  obtain ⟨middle, hcomplete, hrest⟩ := hend
  cases hrest
  exact hcomplete

theorem cbeginIter_state {params : HashParams K T} {h next : Hash T}
    {node : Option (HashNode T)} (hbegin : h.cbeginIter params = some (next, node)) :
    h.complete params = some next := by
  simp only [cbeginIter, Option.bind_eq_bind, Option.bind_eq_some_iff] at hbegin
  obtain ⟨middle, hcomplete, hrest⟩ := hbegin
  split at hrest
  · cases hrest; exact hcomplete
  · cases hrest; exact hcomplete

theorem cendIter_state {params : HashParams K T} {h next : Hash T}
    {node : Option (HashNode T)} (hend : h.cendIter params = some (next, node)) :
    h.complete params = some next := endIter_state hend

theorem next_state {params : HashParams K T} {h next : Hash T} {addr : Nat}
    {node : Option (HashNode T)} (hnext : h.next params addr = some (next, node)) :
    h.complete params = some next := by
  simp only [Hash.next, Option.bind_eq_bind, Option.bind_eq_some_iff] at hnext
  obtain ⟨middle, hcomplete, chain, -, hrest⟩ := hnext
  split at hrest
  · cases hrest; exact hcomplete
  · split at hrest
    · cases hrest; exact hcomplete
    · cases hrest; exact hcomplete
  · cases hrest

end Hash

/-! ## One step of the machine -/

/-- The calls that open with `complete`. -/
def HashCall.IsIterator : HashCall K T → Prop
  | .beginIter | .endIter | .cbeginIter | .cendIter | .next _ => True
  | _ => False

/-- What a returning call does to the state, with the entry it adds or removes. -/
inductive StepEffect [DecidableEq K] (params : HashParams K T) (h : Hash T) :
    HashCall K T → HashAnswer T → Hash T → Prop where
  | insert {value : T} {middle next : Hash T} (hadvance : h.advance params = some middle)
      (hput : Hash.Put middle (params.index h.mBucketsMask (params.getKey value)) value next) :
      StepEffect params h (.insert value) .done next
  | erase {key : K} {middle cut next : Hash T} {status : Bool}
      (hadvance : h.advance params = some middle)
      (hcut : middle.eraseKey params (params.index h.mBucketsMask key) key =
        some (cut, status))
      (hlast : (status = true ∧ cut.isNeedShrink params = true ∧
          cut.rehash params 2 true = some next) ∨
        ((status && cut.isNeedShrink params) = false ∧ next = cut)) :
      StepEffect params h (.erase key) (.status status) next
  | lookup {call : HashCall K T} {answer : HashAnswer T} {next : Hash T}
      (hcall : (∃ key, call = .get key) ∨ ∃ key, call = .isExist key)
      (hadvance : h.advance params = some next) : StepEffect params h call answer next
  | iterator {call : HashCall K T} {answer : HashAnswer T} {next : Hash T}
      (hcall : call.IsIterator) (hcomplete : h.complete params = some next) :
      StepEffect params h call answer next
  | scan {v v' : BitVec 64} {values : List (HashNode T)} (hscan : h.scan v = some (v', values)) :
      StepEffect params h (.scan v) (.scanned v' values) h

/-- Every returning call has one of these effects. -/
theorem hashStep_effect [DecidableEq K] {params : HashParams K T} {h next : Hash T}
    {call : HashCall K T} {answer : HashAnswer T}
    (hstep : hashStep params h call = some (next, answer)) :
    StepEffect params h call answer next := by
  cases call with
  | insert value =>
      obtain ⟨result, hresult, heq⟩ := Option.map_eq_some_iff.mp hstep
      cases heq
      obtain ⟨middle, hadvance, hput⟩ := Hash.insertEntry_cases hresult
      exact .insert hadvance hput
  | erase key =>
      obtain ⟨⟨last, status⟩, hresult, heq⟩ := Option.map_eq_some_iff.mp hstep
      cases heq
      obtain ⟨middle, cut, hadvance, hcut, hlast⟩ := Hash.erase_cases hresult
      exact .erase hadvance hcut hlast
  | get key =>
      obtain ⟨⟨last, node⟩, hresult, heq⟩ := Option.map_eq_some_iff.mp hstep
      cases heq
      exact .lookup (.inl ⟨key, rfl⟩) (Hash.find_state hresult)
  | isExist key =>
      obtain ⟨⟨last, status⟩, hresult, heq⟩ := Option.map_eq_some_iff.mp hstep
      cases heq
      exact .lookup (.inr ⟨key, rfl⟩) (Hash.isExist_state hresult)
  | beginIter =>
      obtain ⟨⟨last, node⟩, hresult, heq⟩ := Option.map_eq_some_iff.mp hstep
      cases heq
      exact .iterator trivial (Hash.beginIter_state hresult)
  | endIter =>
      obtain ⟨⟨last, node⟩, hresult, heq⟩ := Option.map_eq_some_iff.mp hstep
      cases heq
      exact .iterator trivial (Hash.endIter_state hresult)
  | cbeginIter =>
      obtain ⟨⟨last, node⟩, hresult, heq⟩ := Option.map_eq_some_iff.mp hstep
      cases heq
      exact .iterator trivial (Hash.cbeginIter_state hresult)
  | cendIter =>
      obtain ⟨⟨last, node⟩, hresult, heq⟩ := Option.map_eq_some_iff.mp hstep
      cases heq
      exact .iterator trivial (Hash.cendIter_state hresult)
  | next addr =>
      obtain ⟨⟨last, node⟩, hresult, heq⟩ := Option.map_eq_some_iff.mp hstep
      cases heq
      exact .iterator trivial (Hash.next_state hresult)
  | scan v =>
      obtain ⟨⟨v', values⟩, hresult, heq⟩ := Option.map_eq_some_iff.mp hstep
      cases heq
      exact .scan hresult

end RedisDB
