import RedisDB.Hash.Iteration

/-!
# Where traversals begin and what they visit

`begin()` and `cbegin()` complete the rehash and look for the first bucket with a
node, `begin()` without a bound.  From there increments go through the chains of
the completed table in bucket order.
-/

namespace RedisDB

open RedisDB.Library

variable {K T : Type}

namespace Hash

/-- The bodies of a loop that makes no lookups. -/
def emptyBody (K : Type) : Nat → List (Lookup K) := fun _ => []

/-! ## The two searches -/

/-- The search loop of `begin()`, which only a node ends; `none` when it has not ended
within `fuel` tests. -/
def beginSearch (table : HashTable T) : Nat → Nat → Option Nat
  | 0, _ => none
  | fuel + 1, index =>
      match table.getBucketHead index with
      | [] => beginSearch table fuel (index + 1)
      | _ :: _ => some index

/-- The place of the first node of the first bucket that is not empty, and the end position
when there is none. -/
def IsFirst (table : HashTable T) (place : Option (HashNode T)) : Prop :=
  (∀ node, place = some node ↔ ∃ index rest, table.getBucketHead index = node :: rest ∧
      ∀ lower < index, table.getBucketHead lower = []) ∧
    (place = none ↔ table.entries = [])

/-- The search of `begin()` ends, and `begin()` and `cbegin()` stop at the first place of
the completed table. -/
def BeginAgrees (params : HashParams K T) (h : Hash T) : Prop :=
  ∃ full place, h.complete params = some full ∧ full.mBackup = none ∧
    (∃ fuel index, beginSearch full.mActive fuel 0 = some index) ∧
    h.beginIter params = some (full, place) ∧ h.cbeginIter params = some (full, place) ∧
    IsFirst full.mActive place

/-- The bounded search stops at its bound or at a node, past empty buckets only. -/
theorem firstIndex_spec (table : HashTable T) (count index : Nat) :
    index ≤ firstIndex table count index ∧ firstIndex table count index ≤ index + count ∧
      (∀ other, index ≤ other → other < firstIndex table count index →
        table.getBucketHead other = []) ∧
      (firstIndex table count index < index + count →
        table.getBucketHead (firstIndex table count index) ≠ []) := by
  induction count generalizing index with
  | zero =>
      exact ⟨Nat.le_refl _, Nat.le_refl _, fun _ hle hlt => absurd hlt (Nat.not_lt.mpr hle),
        fun hlt => absurd hlt (Nat.lt_irrefl _)⟩
  | succ count ih =>
      rw [firstIndex]
      cases hchain : table.getBucketHead index with
      | nil =>
          dsimp only
          obtain ⟨hlow, hhigh, hempty, hstop⟩ := ih (index + 1)
          refine ⟨by omega, by omega, fun other hle hlt => ?_, fun hlt => hstop (by omega)⟩
          rcases Nat.eq_or_lt_of_le hle with rfl | hafter
          · exact hchain
          · exact hempty other hafter hlt
      | cons node rest =>
          dsimp only
          refine ⟨Nat.le_refl _, Nat.le_add_right _ _, fun other hle hlt => ?_, fun _ => ?_⟩
          · exact absurd hlt (Nat.not_lt.mpr hle)
          · rw [hchain]
            exact List.cons_ne_nil node rest

/-- The unbounded search ends where the bounded one finds a node. -/
theorem beginSearch_of_firstIndex {table : HashTable T} {count index : Nat}
    (hnode : table.getBucketHead (firstIndex table count index) ≠ []) :
    beginSearch table (count + 1) index = some (firstIndex table count index) := by
  induction count generalizing index with
  | zero =>
      rw [firstIndex] at hnode ⊢
      rw [beginSearch]
      cases hchain : table.getBucketHead index with
      | nil => exact absurd hchain hnode
      | cons node rest => rfl
  | succ count ih =>
      rw [firstIndex] at hnode ⊢
      rw [beginSearch]
      cases hchain : table.getBucketHead index with
      | nil =>
          rw [hchain] at hnode
          exact ih hnode
      | cons node rest => rfl

/-- Without a node the search of `begin()` goes on for ever. -/
theorem beginSearch_eq_none {table : HashTable T} (hempty : table.entries = [])
    (fuel index : Nat) : beginSearch table fuel index = none := by
  induction fuel generalizing index with
  | zero => rfl
  | succ fuel ih =>
      have hchain : table.getBucketHead index = [] :=
        List.eq_nil_iff_forall_not_mem.mpr fun node hnode => by
          have hmem := HashTable.mem_entries.mpr ⟨index, hnode⟩
          rw [hempty] at hmem
          cases hmem
      rw [beginSearch, hchain]
      exact ih (index + 1)

theorem isFirst_head? (table : HashTable T) : IsFirst table table.entries.head? := by
  refine ⟨fun node => ?_, List.head?_eq_none_iff⟩
  obtain ⟨-, -, hempty, hstop⟩ := firstIndex_spec table table.mBucketsNumber 0
  rw [head?_entries]
  generalize firstIndex table table.mBucketsNumber 0 = first at *
  constructor
  · intro hhead
    obtain ⟨rest, hchain⟩ := List.head?_eq_some_iff.mp hhead
    exact ⟨first, rest, hchain, fun lower hlower => hempty lower (Nat.zero_le _) hlower⟩
  · rintro ⟨index, rest, hchain, hlower⟩
    have hmem : node ∈ table.getBucketHead index := by rw [hchain]; exact List.mem_cons_self
    have hindex := HashTable.lt_of_mem_getBucketHead hmem
    obtain rfl : index = first := by
      rcases Nat.lt_trichotomy index first with hlt | heq | hgt
      · rw [hempty index (Nat.zero_le _) hlt] at hchain
        cases hchain
      · exact heq
      · exact absurd (hlower first hgt) (hstop (by omega))
    rw [hchain, List.head?_cons]

/-! ## `begin()` and `cbegin()` -/

/-- `cbegin()` returns in every state, at the first place. -/
theorem cbeginIter_of_complete {params : HashParams K T} {h full : Hash T}
    (hcomplete : h.complete params = some full) :
    h.cbeginIter params = some (full, full.mActive.entries.head?) := by
  rw [cbeginIter, hcomplete, head?_entries, Option.bind_eq_bind, Option.bind_some]
  dsimp only
  split
  · rename_i hge
    rw [HashTable.getBucketHead_of_ge hge]
    rfl
  · rfl

section Reachable

variable [DecidableEq K]

/-- `begin()` ends and agrees with `cbegin()` exactly when an entry is stored. -/
theorem begin_agrees (params : HashParams K T) {h : Hash T}
    (hreach : (hashMachine params).Reachable h) :
    BeginAgrees params h ↔ h.entries ≠ [] := by
  obtain ⟨full, hcomplete, hnone, hrehashed⟩ :=
    complete_spec params (reachable_rehashInvariant params hreach)
  have hcontents := hrehashed.contents
  rw [entries_of_none hnone] at hcontents
  constructor
  · rintro ⟨full', place, hcomplete', -, ⟨fuel, index, hsearch⟩, -⟩ hempty
    cases hcomplete.symm.trans hcomplete'
    rw [hempty] at hcontents
    rw [beginSearch_eq_none hcontents.eq_nil] at hsearch
    cases hsearch
  · intro hne
    have hfull : full.mActive.entries ≠ [] := fun hempty => by
      rw [hempty] at hcontents
      exact hne (List.nil_perm.mp hcontents)
    obtain ⟨node, hnode⟩ : ∃ node, full.mActive.entries.head? = some node :=
      Option.ne_none_iff_exists'.mp (by rwa [ne_eq, List.head?_eq_none_iff])
    have hchain : full.mActive.getBucketHead
        (firstIndex full.mActive full.mActive.mBucketsNumber 0) ≠ [] := fun hempty => by
      rw [head?_entries, hempty] at hnode
      cases hnode
    refine ⟨full, some node, hcomplete, hnone, ⟨_, _, beginSearch_of_firstIndex hchain⟩, ?_,
      ?_, ?_⟩
    · rw [beginIter_of_complete hcomplete, hnode]
      rfl
    · rw [cbeginIter_of_complete hcomplete, hnode]
    · rw [← hnode]
      exact isFirst_head? full.mActive

theorem begin_agrees_expanding : BeginAgrees HashParams.identity expanding :=
  (begin_agrees HashParams.identity reachable_expanding).mpr (by decide)

/-- In a freshly constructed container `cbegin()` gives the end position and the search of
`begin()` does not end. -/
theorem not_begin_agrees_new :
    (hashMachine HashParams.identity).Reachable new ∧
      (new : Hash (Nat × Nat)).cbeginIter HashParams.identity = some (new, none) ∧
      ¬ BeginAgrees HashParams.identity new := by
  refine ⟨.init, rfl, ?_⟩
  rintro ⟨full, place, hcomplete, -, ⟨fuel, index, hsearch⟩, -⟩
  obtain rfl : new = full := Option.some.inj hcomplete
  rw [beginSearch_eq_none rfl] at hsearch
  cases hsearch

/-! ## Increments -/

/-- `begin()` and increments, with only `end()` in between, go through the chains of the
completed table in bucket order and end: every entry is visited exactly once. -/
theorem traversal_in_order (params : HashParams K T) {h : Hash T}
    (hreach : (hashMachine params).Reachable h) (hhome : AllHome params h)
    (hne : h.entries ≠ []) :
    ∃ full visited, h.complete params = some full ∧ full.mBackup = none ∧
      iterate params (emptyBody K) (1 + h.entries.length) h = some (full, visited) ∧
      visited = (List.range full.mActive.mBucketsNumber).flatMap full.mActive.getBucketHead ∧
      visited.Perm h.entries ∧ visited.Nodup := by
  obtain ⟨full, hbegin, hnone, hsame⟩ := beginIter_spec (reachable_sound hreach hhome) hne
  have hentries := entries_of_none hnone
  have hquiet : ∀ index < full.entries.length, ∃ answers, (hashMachine params).run full
      ((emptyBody K (0 + index)).map Lookup.call) = some (full, answers) :=
    fun _ _ => ⟨[], rfl⟩
  have hloop := forLoop_rest hsame.sound hnone (List.nil_append full.entries).symm hquiet
  refine ⟨full, full.entries, beginIter_state hbegin, hnone, ?_, ?_, hsame.contents,
    hsame.sound.nodup⟩
  · rw [iterate, hbegin, Option.bind_eq_bind, Option.bind_some, ← hsame.contents.length_eq]
    exact hloop
  · rw [hentries, entries_eq_nodesFrom, nodesFrom, List.range_eq_range']

theorem traversal_in_order_expanding :
    ∃ full visited,
      iterate HashParams.identity (emptyBody Nat) 7 expanding = some (full, visited) ∧
        visited = (List.range full.mActive.mBucketsNumber).flatMap full.mActive.getBucketHead ∧
        visited.Perm expanding.entries := by
  obtain ⟨full, visited, -, -, hloop, horder, hperm, -⟩ :=
    traversal_in_order HashParams.identity reachable_expanding (by decide) (by decide)
  rw [show expanding.entries.length = 6 by decide] at hloop
  exact ⟨full, visited, hloop, horder, hperm⟩

end Reachable

end Hash

end RedisDB
