import RedisDB.Hash.Order
import Mathlib.Data.List.TakeWhile

/-!
# Loops over a container

`for (it = begin(); it != end(); ++it)` with lookups in its body.  A lookup may
start an expansion, which the next increment completes: the iterator goes on
from the node it holds, in the new order.  So a loop visits every entry once
exactly when no lookup is made in a table about to be expanded, or the first one
is made at a node that splits the new order as it splits the old one.
-/

namespace RedisDB

open RedisDB.Library

variable {K T : Type}

/-- A lookup in a loop body; around `get`, `std::out_of_range` is caught. -/
inductive Lookup (K : Type) where
  | isExist (key : K)
  | get (key : K)

def Lookup.call : Lookup K → HashCall K T
  | .isExist key => .isExist key
  | .get key => .get key

namespace Hash

section Loop

variable [DecidableEq K]

/-- The rounds of the loop: the test against `end()`, the lookups of the body, and the
increment.  It returns the nodes visited, and `none` when the fuel is spent or a call does
not return.  Iterators are compared by the address of the value they point to. -/
def forLoop (params : HashParams K T) (bodies : Nat → List (Lookup K)) :
    Nat → Nat → Hash T → Option (HashNode T) → Option (Hash T × List (HashNode T))
  | 0, _, _, _ => none
  | fuel + 1, round, h, it => do
      let (h, last) ← h.endIter params
      if it.map HashNode.addr = last.map HashNode.addr then return (h, [])
      else
        let node ← it
        let (h, _) ← (hashMachine params).run h ((bodies round).map Lookup.call)
        let (h, it) ← h.next params node.addr
        let (h, visited) ← forLoop params bodies fuel (round + 1) h it
        return (h, node :: visited)

/-- The whole loop.  Whatever its body depends on, `bodies` lists the lookups it makes in
each round. -/
def iterate (params : HashParams K T) (bodies : Nat → List (Lookup K)) (fuel : Nat)
    (h : Hash T) : Option (Hash T × List (HashNode T)) := do
  let (h, it) ← h.beginIter params
  forLoop params bodies fuel 0 h it

/-- The loop ends, and has visited every stored entry exactly once. -/
def VisitsAll (params : HashParams K T) (bodies : Nat → List (Lookup K)) (h : Hash T) : Prop :=
  ∃ fuel last visited,
    iterate params bodies fuel h = some (last, visited) ∧ visited.Perm h.entries

/-- Whether the loop is safe: if the table is about to be expanded and some body makes a
lookup, the first such body belongs to a node whose bucket among twice as many lies above
those of all nodes before it and below those of all nodes behind it, and there are not too
many nodes for the expansion. -/
def LoopSafe (params : HashParams K T) (bodies : Nat → List (Lookup K)) (h : Hash T) : Prop :=
  Overfull params h → ∀ before node after, h.order params = before ++ node :: after →
    (∀ round < before.length, bodies round = []) → bodies before.length ≠ [] →
      h.entries.length ≤ 2 ^ 30 ∧
        (∀ other ∈ before, params.home (2 * h.mBucketsNumber - 1) other <
          params.home (2 * h.mBucketsNumber - 1) node) ∧
        ∀ other ∈ after, params.home (2 * h.mBucketsNumber - 1) node <
          params.home (2 * h.mBucketsNumber - 1) other

/-- Spare fuel changes nothing. -/
theorem forLoop_mono {params : HashParams K T} {bodies : Nat → List (Lookup K)}
    {fuel round : Nat} {h : Hash T} {it : Option (HashNode T)}
    {result : Hash T × List (HashNode T)}
    (hloop : forLoop params bodies fuel round h it = some result) (more : Nat) :
    forLoop params bodies (fuel + more) round h it = some result := by
  induction fuel generalizing round h it result with
  | zero => cases hloop
  | succ fuel ih =>
      rw [Nat.succ_add]
      simp only [forLoop, Option.bind_eq_bind, Option.bind_eq_some_iff] at hloop ⊢
      obtain ⟨first, hend, hrest⟩ := hloop
      refine ⟨first, hend, ?_⟩
      split at hrest
      · rename_i heq
        rw [if_pos heq]
        exact hrest
      · rename_i hne
        rw [if_neg hne]
        simp only [Option.bind_eq_some_iff] at hrest ⊢
        obtain ⟨node, hnode, body, hbody, second, hnext, third, htail, hresult⟩ := hrest
        exact ⟨node, hnode, body, hbody, second, hnext, third, ih htail, hresult⟩

/-- So a loop has one result. -/
theorem forLoop_unique {params : HashParams K T} {bodies : Nat → List (Lookup K)}
    {fuel fuel' round : Nat} {h : Hash T} {it : Option (HashNode T)}
    {result result' : Hash T × List (HashNode T)}
    (hloop : forLoop params bodies fuel round h it = some result)
    (hloop' : forLoop params bodies fuel' round h it = some result') : result = result' := by
  have hfirst := forLoop_mono hloop fuel'
  have hsecond := forLoop_mono hloop' fuel
  rw [Nat.add_comm] at hsecond
  exact Option.some.inj (hfirst.symm.trans hsecond)

theorem iterate_unique {params : HashParams K T} {bodies : Nat → List (Lookup K)}
    {fuel fuel' : Nat} {h : Hash T} {result result' : Hash T × List (HashNode T)}
    (hloop : iterate params bodies fuel h = some result)
    (hloop' : iterate params bodies fuel' h = some result') : result = result' := by
  simp only [iterate, Option.bind_eq_bind, Option.bind_eq_some_iff] at hloop hloop'
  obtain ⟨first, hbegin, hrest⟩ := hloop
  obtain ⟨first', hbegin', hrest'⟩ := hloop'
  cases hbegin.symm.trans hbegin'
  exact forLoop_unique hrest hrest'

end Loop

/-! ## Iterators on one table -/

/-- The chain a node pointer leads into. -/
theorem chainFrom_of_split {table : HashTable T} {index : Nat} {before after : List (HashNode T)}
    {node : HashNode T} (haddrs : (table.entries.map HashNode.addr).Nodup)
    (hchain : table.getBucketHead index = before ++ node :: after) :
    table.chainFrom node.addr = some (node :: after) := by
  have hindex : index < table.mBucketsNumber := by
    have hnode : node ∈ table.getBucketHead index := by
      rw [hchain]
      exact List.mem_append_right _ List.mem_cons_self
    exact HashTable.lt_of_mem_getBucketHead hnode
  have hlength : index < table.mNodes.length := by rwa [table.mNodes_length]
  have hget : table.mNodes[index] = before ++ node :: after := by
    rw [← hchain, HashTable.getBucketHead_of_lt hindex, List.getD_eq_getElem _ _ hlength]
  have hsplit : table.mNodes = table.mNodes.take index ++
      (before ++ node :: after) :: table.mNodes.drop (index + 1) := by
    rw [← hget, ← List.drop_eq_getElem_cons hlength, List.take_append_drop]
  rw [HashTable.entries, hsplit, List.flatten_append, List.flatten_cons, List.append_assoc,
    List.map_append, List.map_append, List.cons_append, List.map_cons] at haddrs
  have hbefore : ∀ other ∈ before, other.addr ≠ node.addr := fun other hother heq =>
    List.disjoint_of_nodup_append haddrs.of_append_right (List.mem_map_of_mem hother)
      (heq ▸ List.mem_cons_self)
  have hearlier : ∀ chain ∈ table.mNodes.take index, ∀ other ∈ chain,
      other.addr ≠ node.addr := fun chain hin other hother heq =>
    List.disjoint_of_nodup_append haddrs
      (List.mem_map_of_mem (List.mem_flatten_of_mem hin hother))
      (heq ▸ List.mem_append_right _ List.mem_cons_self)
  rw [HashTable.chainFrom, hsplit, List.findSome?_append, List.findSome?_cons,
    List.findSome?_eq_none_iff.mpr]
  · rw [List.dropWhile_append_of_pos (by simpa using hbefore),
      List.dropWhile_cons_of_neg (by simp)]
    rfl
  · intro chain hin
    have hnone : chain.dropWhile (fun other => other.addr ≠ node.addr) = [] :=
      List.dropWhile_eq_nil_iff.mpr (by simpa using hearlier chain hin)
    rw [hnone]

/-- The search of an iterator finds the first node of the buckets it looks through. -/
theorem head?_nodesFrom {table : HashTable T} {count index : Nat}
    (hend : table.getBucketHead (index + count) = []) :
    (nodesFrom table index count).head? =
      (table.getBucketHead (firstIndex table count index)).head? := by
  induction count generalizing index with
  | zero => rw [firstIndex, show table.getBucketHead index = [] from hend]; rfl
  | succ count ih =>
      rw [nodesFrom_succ, firstIndex]
      cases hchain : table.getBucketHead index with
      | nil =>
          rw [List.nil_append]
          exact ih (by rwa [Nat.add_right_comm])
      | cons node rest =>
          dsimp only
          rw [hchain]
          rfl

/-- The contents begin where the search of an iterator stops. -/
theorem head?_entries (table : HashTable T) :
    table.entries.head? =
      (table.getBucketHead (firstIndex table table.mBucketsNumber 0)).head? := by
  have hend : table.getBucketHead (0 + table.mBucketsNumber) = [] :=
    HashTable.getBucketHead_of_ge (by omega)
  rw [entries_eq_nodesFrom, head?_nodesFrom hend]

/-- Behind a node come the rest of its chain and the later buckets. -/
theorem entries_around {table : HashTable T} {index : Nat} {before after : List (HashNode T)}
    {node : HashNode T} (hchain : table.getBucketHead index = before ++ node :: after)
    (hindex : index < table.mBucketsNumber) :
    table.entries = (nodesFrom table 0 index ++ before) ++
      node :: (after ++ nodesFrom table (index + 1) (table.mBucketsNumber - (index + 1))) := by
  have hcount : table.mBucketsNumber = index + (table.mBucketsNumber - (index + 1) + 1) := by
    omega
  rw [entries_eq_nodesFrom]
  conv_lhs => rw [hcount]
  rw [nodesFrom_append, Nat.zero_add, nodesFrom_succ, hchain]
  simp only [List.append_assoc, List.cons_append]

/-- `next` on a single table gives the node behind. -/
theorem next_of_none {params : HashParams K T} {h : Hash T} {before after : List (HashNode T)}
    {node : HashNode T} (hsound : Sound params h) (hbackup : h.mBackup = none)
    (hentries : h.entries = before ++ node :: after) :
    h.next params node.addr = some (h, after.head?) := by
  have hinv := hsound.invariant
  have hnumber := hinv.idle_number (hinv.idle_of_none hbackup)
  have haddrs := hsound.addrs
  have hmem : node ∈ h.mActive.entries := by
    rw [← entries_of_none hbackup, hentries]
    exact List.mem_append_right _ List.mem_cons_self
  obtain ⟨index, hindex⟩ := HashTable.mem_entries.mp hmem
  have hhome : params.home h.mBucketsMask node = index := by
    rw [hinv.mask, ← hnumber]
    exact hsound.home.1 index node hindex
  have hlt := HashTable.lt_of_mem_getBucketHead hindex
  obtain ⟨first, rest, hchain⟩ := List.append_of_mem hindex
  have hafter : after =
      rest ++ nodesFrom h.mActive (index + 1) (h.mActive.mBucketsNumber - (index + 1)) := by
    have haround := entries_around hchain hlt
    rw [← entries_of_none hbackup, hentries] at haround
    have hnodup := hsound.nodup
    rw [hentries] at hnodup
    have hbehind := (List.nodup_cons.mp hnodup.of_append_right).1
    have hfront : node ∉ before := fun hin =>
      List.disjoint_of_nodup_append hnodup hin List.mem_cons_self
    exact ((List.append_cons_inj_of_notMem hfront hbehind).mp haround).2.2
  have hbound : h.mActive.getBucketHead
      (index + 1 + (h.mActive.mBucketsNumber - (index + 1))) = [] :=
    HashTable.getBucketHead_of_ge (by omega)
  rw [entries_of_none hbackup] at haddrs
  rw [Hash.next, complete_of_none params hinv hbackup, Option.bind_eq_bind, Option.bind_some,
    chainFrom_of_split haddrs hchain, Option.bind_eq_bind, Option.bind_some, hafter]
  cases rest with
  | cons follower rest => rfl
  | nil =>
      rw [List.nil_append, head?_nodesFrom hbound]
      dsimp only
      rw [show params.index h.mBucketsMask (params.getKey node.mValue) = index from hhome]
      split
      · rename_i hge
        rw [HashTable.getBucketHead_of_ge (by omega)]
        rfl
      · rfl

/-- The increment of an iterator whose table may be in the middle of a rehash. -/
theorem next_spec {params : HashParams K T} {h : Hash T} {before after : List (HashNode T)}
    {node : HashNode T} (hsound : Sound params h)
    (horder : h.order params = before ++ node :: after) :
    ∃ full, h.next params node.addr = some (full, after.head?) ∧ full.mBackup = none ∧
      SameOrder params h full := by
  obtain ⟨full, hcomplete, hnone, hsame⟩ := sameOrder_complete hsound
  have hinv := hsame.sound.invariant
  refine ⟨full, ?_, hnone, hsame⟩
  have hentries : full.entries = before ++ node :: after := by
    rw [← order_of_none params hinv hnone, hsame.order, horder]
  rw [← next_of_none hsame.sound hnone hentries, Hash.next, Hash.next, hcomplete,
    complete_of_none params hinv hnone]

/-- `begin()` returns exactly when a node is stored, at the first place as well. -/
theorem beginIter_of_complete {params : HashParams K T} {h full : Hash T}
    (hcomplete : h.complete params = some full) :
    h.beginIter params =
      full.mActive.entries.head?.map fun node => (full, some node) := by
  rw [beginIter, hcomplete, head?_entries, Option.bind_eq_bind, Option.bind_some]
  cases full.mActive.getBucketHead
    (firstIndex full.mActive full.mActive.mBucketsNumber 0) <;> rfl

/-- `begin()` stands at the first node of the completed table. -/
theorem beginIter_spec {params : HashParams K T} {h : Hash T} (hsound : Sound params h)
    (hne : h.entries ≠ []) :
    ∃ full, h.beginIter params = some (full, full.entries.head?) ∧ full.mBackup = none ∧
      SameOrder params h full := by
  obtain ⟨full, hcomplete, hnone, hsame⟩ := sameOrder_complete hsound
  refine ⟨full, ?_, hnone, hsame⟩
  rw [beginIter_of_complete hcomplete, ← entries_of_none hnone]
  cases hentries : full.entries with
  | cons node rest => rfl
  | nil => exact absurd (List.nil_perm.mp (hentries ▸ hsame.contents)) hne

theorem endIter_of_none (params : HashParams K T) {h : Hash T} (hinv : RehashInvariant h)
    (hbackup : h.mBackup = none) : h.endIter params = some (h, none) := by
  rw [endIter, complete_of_none params hinv hbackup]
  rfl

/-! ## Lookups in a body -/

section Bodies

variable [DecidableEq K] {params : HashParams K T} {h : Hash T}

/-- Both kinds of lookups return when their rehash step does, and leave its state. -/
theorem lookup_of_advance {next : Hash T} (hinv : RehashInvariant h)
    (hadvance : h.advance params = some next) (lookup : Lookup K) :
    ∃ answer, hashStep params h lookup.call = some (next, answer) := by
  cases lookup with
  | isExist key =>
      exact ⟨_, by rw [Lookup.call, hashStep, isExist_of_advance hinv hadvance]; rfl⟩
  | get key =>
      exact ⟨_, by rw [Lookup.call, hashStep, find_of_advance hinv hadvance]; rfl⟩

theorem lookup_of_advance_none (hadvance : h.advance params = none) (lookup : Lookup K) :
    hashStep params h lookup.call = none := by
  cases lookup with
  | isExist key => simp [Lookup.call, hashStep, isExist, hadvance]
  | get key => simp [Lookup.call, hashStep, find, hadvance]

/-- Lookups in a single table with room leave it alone. -/
theorem lookups_of_room (hinv : RehashInvariant h) (hbackup : h.mBackup = none)
    (hroom : ¬ Overfull params h) (lookups : List (Lookup K)) :
    ∃ answers, (hashMachine params).run h (lookups.map Lookup.call) = some (h, answers) := by
  induction lookups with
  | nil => exact ⟨[], rfl⟩
  | cons lookup rest ih =>
      obtain ⟨answer, hstep⟩ :=
        lookup_of_advance hinv (advance_of_room hinv hbackup hroom) lookup
      obtain ⟨answers, hrest⟩ := ih
      exact ⟨answer :: answers,
        Machine.run_cons_eq_some.mpr ⟨h, answer, answers, hstep, hrest, rfl⟩⟩

/-- Lookups that start no expansion keep the order. -/
theorem sameOrder_lookups (hsound : Sound params h) (hroom : ¬ Overfull params h)
    (lookups : List (Lookup K)) :
    ∃ next answers,
      (hashMachine params).run h (lookups.map Lookup.call) = some (next, answers) ∧
        SameOrder params h next := by
  induction lookups generalizing h with
  | nil => exact ⟨h, [], rfl, .refl hsound⟩
  | cons lookup rest ih =>
      obtain ⟨middle, hadvance, hfirst⟩ := sameOrder_advance hsound hroom
      obtain ⟨answer, hstep⟩ := lookup_of_advance hsound.invariant hadvance lookup
      obtain ⟨next, answers, hrest, hsecond⟩ :=
        ih hfirst.sound (fun hover => hroom (hfirst.overfull_iff.mp hover))
      exact ⟨next, answer :: answers,
        Machine.run_cons_eq_some.mpr ⟨middle, answer, answers, hstep, hrest, rfl⟩,
        hfirst.trans hsecond⟩

/-- The first lookup in an overfull table files all nodes anew. -/
theorem lookups_of_overfull (hsound : Sound params h) (hpaced : Paced params.factors 1 h)
    (hbackup : h.mBackup = none) (hover : Overfull params h)
    (hsize : h.entries.length ≤ 2 ^ 30) {lookups : List (Lookup K)} (hne : lookups ≠ []) :
    ∃ next answers,
      (hashMachine params).run h (lookups.map Lookup.call) = some (next, answers) ∧
        Sound params next ∧ ¬ Overfull params next ∧
        next.order params = bucketed (params.home (2 * h.mBucketsNumber - 1))
          (2 * h.mBucketsNumber) h.entries := by
  have hinv := hsound.invariant
  cases lookups with
  | nil => exact absurd rfl hne
  | cons lookup rest =>
      rw [entries_of_none hbackup, ← hinv.idle_size (hinv.idle_of_none hbackup)] at hsize
      obtain ⟨middle, hadvance⟩ := advance_isSome params hinv fun _ _ => hsize
      obtain ⟨hmiddle, hroom, horder⟩ :=
        advance_of_overfull hsound hpaced hbackup hover hadvance
      obtain ⟨answer, hstep⟩ := lookup_of_advance hinv hadvance lookup
      obtain ⟨next, answers, hrest, hsame⟩ := sameOrder_lookups hmiddle hroom rest
      exact ⟨next, answer :: answers,
        Machine.run_cons_eq_some.mpr ⟨middle, answer, answers, hstep, hrest, rfl⟩,
        hsame.sound, fun h0 => hroom (hsame.overfull_iff.mp h0), hsame.order.trans horder⟩

/-- With too many nodes it does not return. -/
theorem lookups_eq_none (hinv : RehashInvariant h) (hbackup : h.mBackup = none)
    (hover : Overfull params h) (hsize : 2 ^ 30 < h.entries.length)
    {lookups : List (Lookup K)} (hne : lookups ≠ []) :
    (hashMachine params).run h (lookups.map Lookup.call) = none := by
  cases lookups with
  | nil => exact absurd rfl hne
  | cons lookup rest =>
      have hstep : (hashMachine params).step h lookup.call = none :=
        lookup_of_advance_none (advance_eq_none hinv hbackup hover hsize) lookup
      rw [List.map_cons, Machine.run, hstep]

end Bodies

/-! ## The first round with a lookup -/

/-- Either no round over the nodes makes a lookup, or there is a first one that does. -/
theorem first_lookup {α : Type*} (bodies : Nat → List (Lookup K)) (nodes : List α) :
    (∀ round < nodes.length, bodies round = []) ∨
      ∃ before node after, nodes = before ++ node :: after ∧
        (∀ round < before.length, bodies round = []) ∧ bodies before.length ≠ [] := by
  induction nodes generalizing bodies with
  | nil => exact .inl fun round hround => absurd hround (Nat.not_lt_zero _)
  | cons first rest ih =>
      by_cases hzero : bodies 0 = []
      · rcases ih fun round => bodies (round + 1) with
          hquiet | ⟨before, node, after, rfl, hquiet, hbody⟩
        · refine .inl fun round hround => ?_
          cases round with
          | zero => exact hzero
          | succ round => exact hquiet round (Nat.lt_of_succ_lt_succ hround)
        · refine .inr ⟨first :: before, node, after, rfl, fun round hround => ?_, hbody⟩
          cases round with
          | zero => exact hzero
          | succ round => exact hquiet round (Nat.lt_of_succ_lt_succ hround)
      · refine .inr ⟨[], first, rest, rfl, fun round hround => ?_, hzero⟩
        exact absurd hround (Nat.not_lt_zero _)

/-- There is only one first round with a lookup. -/
theorem first_lookup_unique {α : Type*} {bodies : Nat → List (Lookup K)}
    {before before' after after' : List α} {node node' : α}
    (hsplit : before ++ node :: after = before' ++ node' :: after')
    (hquiet : ∀ round < before.length, bodies round = []) (hbody : bodies before.length ≠ [])
    (hquiet' : ∀ round < before'.length, bodies round = [])
    (hbody' : bodies before'.length ≠ []) : before = before' ∧ node = node' ∧ after = after' := by
  have hsame : before.length = before'.length := by
    rcases Nat.lt_trichotomy before.length before'.length with hlt | heq | hgt
    · exact absurd (hquiet' _ hlt) hbody
    · exact heq
    · exact absurd (hquiet _ hgt) hbody'
  obtain ⟨hbefore, hrest⟩ := List.append_inj hsplit hsame
  exact ⟨hbefore, List.cons.inj hrest⟩

/-! ## Rounds of a loop -/

section Rounds

variable [DecidableEq K] {params : HashParams K T} {bodies : Nat → List (Lookup K)}
  {h : Hash T}

/-- One round, from a table at rest. -/
theorem forLoop_round (hinv : RehashInvariant h) (hbackup : h.mBackup = none)
    {round : Nat} {node : HashNode T} {middle full : Hash T} {it : Option (HashNode T)}
    {answers : List (HashAnswer T)}
    (hbody : (hashMachine params).run h ((bodies round).map Lookup.call) =
      some (middle, answers))
    (hnext : middle.next params node.addr = some (full, it)) (fuel : Nat) :
    forLoop params bodies (fuel + 1) round h (some node) =
      (forLoop params bodies fuel (round + 1) full it).map fun result =>
        (result.1, node :: result.2) := by
  simp only [forLoop, endIter_of_none params hinv hbackup, hbody, hnext, Option.bind_eq_bind,
    Option.bind_some, Option.map_some, Option.map_none, reduceCtorEq, if_false]
  cases forLoop params bodies fuel (round + 1) full it <;> rfl

theorem forLoop_end (params : HashParams K T) (bodies : Nat → List (Lookup K))
    (hinv : RehashInvariant h) (hbackup : h.mBackup = none) (fuel round : Nat) :
    forLoop params bodies (fuel + 1) round h none = some (h, []) := by
  simp only [forLoop, endIter_of_none params hinv hbackup, Option.bind_eq_bind,
    Option.bind_some, Option.map_none, if_true]
  rfl

/-- Rounds whose bodies leave the table as it is visit its nodes one after the other. -/
theorem forLoop_quiet (hsound : Sound params h) (hbackup : h.mBackup = none)
    (before segment after : List (HashNode T)) {round : Nat}
    (hentries : h.entries = before ++ (segment ++ after))
    (hquiet : ∀ index < segment.length, ∃ answers, (hashMachine params).run h
      ((bodies (round + index)).map Lookup.call) = some (h, answers)) (fuel : Nat) :
    forLoop params bodies (fuel + segment.length) round h (segment ++ after).head? =
      (forLoop params bodies fuel (round + segment.length) h after.head?).map fun result =>
        (result.1, segment ++ result.2) := by
  induction segment generalizing before round with
  | nil => simp
  | cons node rest ih =>
      obtain ⟨answers, hbody⟩ := hquiet 0 (Nat.succ_pos _)
      have hnext := next_of_none hsound hbackup hentries
      have htail : h.entries = (before ++ [node]) ++ (rest ++ after) := by
        rw [hentries]
        simp
      have hrest := ih (before ++ [node]) htail fun index hindex => by
        obtain ⟨others, hother⟩ := hquiet (index + 1) (Nat.succ_lt_succ hindex)
        rw [← Nat.add_assoc, Nat.add_right_comm] at hother
        exact ⟨others, hother⟩
      have hround := forLoop_round hsound.invariant hbackup hbody hnext
      calc forLoop params bodies (fuel + (rest.length + 1)) round h (some node)
          = (forLoop params bodies (fuel + rest.length) (round + 1) h
              (rest ++ after).head?).map fun result => (result.1, node :: result.2) :=
            hround (fuel + rest.length)
        _ = (forLoop params bodies fuel (round + 1 + rest.length) h after.head?).map
              fun result => (result.1, node :: (rest ++ result.2)) := by
            rw [hrest, Option.map_map]
            rfl
        _ = (forLoop params bodies fuel (round + (rest.length + 1)) h after.head?).map
              fun result => (result.1, node :: (rest ++ result.2)) := by
            rw [Nat.add_assoc, Nat.add_comm 1]

/-- A loop in a table that stays as it is ends, and visits all that is left. -/
theorem forLoop_rest (hsound : Sound params h) (hbackup : h.mBackup = none)
    {before after : List (HashNode T)} (hentries : h.entries = before ++ after) {round : Nat}
    (hquiet : ∀ index < after.length, ∃ answers, (hashMachine params).run h
      ((bodies (round + index)).map Lookup.call) = some (h, answers)) :
    forLoop params bodies (1 + after.length) round h after.head? = some (h, after) := by
  have hloop := forLoop_quiet hsound hbackup before after []
    (by rw [hentries, List.append_nil]) hquiet 1
  rw [List.append_nil, List.head?_nil,
    forLoop_end params bodies hsound.invariant hbackup 0] at hloop
  simpa using hloop

/-- From the round of the first body with lookups on, in a table about to be expanded. -/
theorem forLoop_overfull (hsound : Sound params h) (hpaced : Paced params.factors 1 h)
    (hbackup : h.mBackup = none) (hover : Overfull params h)
    (hsize : h.entries.length ≤ 2 ^ 30) {before after : List (HashNode T)}
    {node : HashNode T} (hentries : h.entries = before ++ node :: after) {round : Nat}
    (hbody : bodies round ≠ []) :
    ∃ fuel last later,
      forLoop params bodies fuel round h (some node) = some (last, node :: later) ∧
        (later.Perm after ↔
          (∀ other ∈ before, params.home (2 * h.mBucketsNumber - 1) other <
            params.home (2 * h.mBucketsNumber - 1) node) ∧
          ∀ other ∈ after, params.home (2 * h.mBucketsNumber - 1) node <
            params.home (2 * h.mBucketsNumber - 1) other) := by
  obtain ⟨middle, answers, hrun, hmiddle, hroom, horder⟩ :=
    lookups_of_overfull hsound hpaced hbackup hover hsize hbody
  have hbound : ∀ other : HashNode T, params.home (2 * h.mBucketsNumber - 1) other <
      2 * h.mBucketsNumber := fun other =>
    params.index_lt hsound.invariant.number_count.double _
  have hnodup := hsound.nodup
  rw [hentries] at hnodup horder
  obtain ⟨earlier, later, hsplit, hiff⟩ := bucketed_later_perm hbound hnodup
  rw [hsplit] at horder
  obtain ⟨full, hnext, hnone, hsame⟩ := next_spec hmiddle horder
  have hfull : full.entries = (earlier ++ [node]) ++ later := by
    rw [← order_of_none params hsame.sound.invariant hnone, hsame.order, horder]
    simp
  have hroomFull : ¬ Overfull params full := fun h0 => hroom (hsame.overfull_iff.mp h0)
  have hrest := forLoop_rest hsame.sound hnone hfull fun index (_ : index < later.length) =>
    lookups_of_room hsame.sound.invariant hnone hroomFull (bodies (round + 1 + index))
  refine ⟨1 + later.length + 1, full, later, ?_, hiff⟩
  rw [forLoop_round hsound.invariant hbackup hrun hnext, hrest]
  rfl

/-- With too many nodes for the expansion the loop does not go on. -/
theorem forLoop_eq_none (hinv : RehashInvariant h) (hbackup : h.mBackup = none)
    (hover : Overfull params h) (hsize : 2 ^ 30 < h.entries.length) {round : Nat}
    (hbody : bodies round ≠ []) (fuel : Nat) (node : HashNode T) :
    forLoop params bodies fuel round h (some node) = none := by
  have hrun := lookups_eq_none hinv hbackup hover hsize hbody
  cases fuel with
  | zero => rfl
  | succ fuel =>
      simp only [forLoop, endIter_of_none params hinv hbackup, hrun, Option.bind_eq_bind,
        Option.bind_some, Option.bind_none, Option.map_some, Option.map_none, reduceCtorEq,
        if_false]

/-- The rounds of a loop from the first node on visit all nodes. -/
def RoundsVisitAll (params : HashParams K T) (bodies : Nat → List (Lookup K)) (h : Hash T) :
    Prop :=
  ∃ fuel last visited,
    forLoop params bodies fuel 0 h h.entries.head? = some (last, visited) ∧
      visited.Perm h.entries

/-- A loop in whose table nothing is moved visits all nodes. -/
theorem rounds_of_quiet (hsound : Sound params h) (hbackup : h.mBackup = none)
    (hquiet : ∀ round < h.entries.length, ∃ answers, (hashMachine params).run h
      ((bodies round).map Lookup.call) = some (h, answers)) :
    RoundsVisitAll params bodies h := by
  have hrounds : ∀ index < h.entries.length, ∃ answers, (hashMachine params).run h
      ((bodies (0 + index)).map Lookup.call) = some (h, answers) := by
    simpa only [Nat.zero_add] using hquiet
  have hentries : h.entries = [] ++ h.entries := rfl
  exact ⟨1 + h.entries.length, h, h.entries, forLoop_rest hsound hbackup hentries hrounds,
    List.Perm.refl _⟩

/-- The first body with lookups decides. -/
theorem rounds_of_overfull (hsound : Sound params h) (hpaced : Paced params.factors 1 h)
    (hbackup : h.mBackup = none) (hover : Overfull params h)
    {before after : List (HashNode T)} {node : HashNode T}
    (hentries : h.entries = before ++ node :: after)
    (hquiet : ∀ round < before.length, bodies round = []) (hbody : bodies before.length ≠ []) :
    RoundsVisitAll params bodies h ↔
      h.entries.length ≤ 2 ^ 30 ∧
        (∀ other ∈ before, params.home (2 * h.mBucketsNumber - 1) other <
          params.home (2 * h.mBucketsNumber - 1) node) ∧
        ∀ other ∈ after, params.home (2 * h.mBucketsNumber - 1) node <
          params.home (2 * h.mBucketsNumber - 1) other := by
  have hrounds : ∀ index < before.length, ∃ answers, (hashMachine params).run h
      ((bodies (0 + index)).map Lookup.call) = some (h, answers) := by
    intro index hindex
    rw [Nat.zero_add, hquiet index hindex]
    exact ⟨[], rfl⟩
  have hfirst := forLoop_quiet hsound hbackup [] before (node :: after) hentries hrounds
  rw [← hentries, Nat.zero_add] at hfirst
  rcases Nat.lt_or_ge (2 ^ 30) h.entries.length with hlarge | hsize
  · refine iff_of_false ?_ fun hall => absurd hall.1 (Nat.not_le.mpr hlarge)
    rintro ⟨fuel, last, visited, hloop, -⟩
    have hmore := forLoop_mono hloop before.length
    rw [hfirst fuel, List.head?_cons,
      forLoop_eq_none hsound.invariant hbackup hover hlarge hbody] at hmore
    cases hmore
  · obtain ⟨fuel, last, later, hrest, hiff⟩ :=
      forLoop_overfull hsound hpaced hbackup hover hsize hentries hbody
    have hwhole := hfirst fuel
    rw [List.head?_cons, hrest, Option.map_some] at hwhole
    rw [and_iff_right hsize, ← hiff]
    constructor
    · rintro ⟨fuel', last', visited, hloop, hperm⟩
      cases forLoop_unique hloop hwhole
      rw [hentries] at hperm
      exact ((List.perm_append_left_iff before).mp hperm).cons_inv
    · intro hperm
      refine ⟨_, last, _, hwhole, ?_⟩
      rw [hentries]
      exact (hperm.cons node).append_left before

/-- In a table at rest the condition decides. -/
theorem rounds_iff_loopSafe (bodies : Nat → List (Lookup K)) (hsound : Sound params h)
    (hpaced : Paced params.factors 1 h) (hbackup : h.mBackup = none) :
    RoundsVisitAll params bodies h ↔ LoopSafe params bodies h := by
  have horder := order_of_none params hsound.invariant hbackup
  by_cases hover : Overfull params h
  · rcases first_lookup bodies h.entries with
      hquiet | ⟨before, node, after, hentries, hquiet, hbody⟩
    · refine iff_of_true (rounds_of_quiet hsound hbackup fun round hround => ⟨[], ?_⟩) ?_
      · rw [hquiet round hround]
        rfl
      · intro _ before node after hsplit _ hbody
        rw [horder] at hsplit
        refine absurd (hquiet before.length ?_) hbody
        rw [hsplit, List.length_append, List.length_cons]
        omega
    · rw [rounds_of_overfull hsound hpaced hbackup hover hentries hquiet hbody]
      constructor
      · intro hall _ before' node' after' hsplit hquiet' hbody'
        rw [horder, hentries] at hsplit
        obtain ⟨rfl, rfl, rfl⟩ := first_lookup_unique hsplit hquiet hbody hquiet' hbody'
        exact hall
      · intro hsafe
        exact hsafe hover before node after (horder.trans hentries) hquiet hbody
  · have hquiet := fun round (_ : round < h.entries.length) =>
      lookups_of_room hsound.invariant hbackup hover (bodies round)
    exact iff_of_true (rounds_of_quiet hsound hbackup hquiet) fun h0 => absurd h0 hover

end Rounds

/-! ## The whole loop -/

/-- The condition is about the completed table. -/
theorem SameOrder.loopSafe_iff {params : HashParams K T} {h next : Hash T}
    (hsame : SameOrder params h next) (bodies : Nat → List (Lookup K)) :
    LoopSafe params bodies next ↔ LoopSafe params bodies h := by
  rw [LoopSafe, LoopSafe, hsame.overfull_iff, hsame.order, hsame.number,
    hsame.contents.length_eq]

section Whole

variable [DecidableEq K]

/-- A loop with lookups in its body ends and visits every entry exactly once, exactly when
it is safe. -/
theorem iterate_visits_all (params : HashParams K T) (bodies : Nat → List (Lookup K))
    {h : Hash T} (hreach : (hashMachine params).Reachable h) (hhome : AllHome params h)
    (hne : h.entries ≠ []) : VisitsAll params bodies h ↔ LoopSafe params bodies h := by
  have hsound := reachable_sound hreach hhome
  obtain ⟨full, hbegin, hnone, hsame⟩ := beginIter_spec hsound hne
  have hpaced := (reachable_paced params hreach).complete hsound.invariant
    (beginIter_state hbegin)
  have hrounds : VisitsAll params bodies h ↔ RoundsVisitAll params bodies full := by
    simp only [VisitsAll, RoundsVisitAll, iterate, hbegin, Option.bind_eq_bind,
      Option.bind_some]
    refine exists_congr fun _ => exists_congr fun _ => exists_congr fun visited => ?_
    exact and_congr_right fun _ =>
      ⟨fun hperm => hperm.trans hsame.contents.symm, fun hperm => hperm.trans hsame.contents⟩
  rw [hrounds, rounds_iff_loopSafe bodies hsame.sound hpaced hnone, hsame.loopSafe_iff]

/-- Five keys fill a table of four buckets; the next keyed call expands it. -/
def filled : Hash (Nat × Nat) :=
  (hashMachine HashParams.identity).stateAfter (insertions [0, 1, 2, 3, 4]) (by decide)

/-- A loop whose first round asks for the key `4`. -/
def asksFirst (round : Nat) : List (Lookup Nat) :=
  if round = 0 then [.isExist 4] else []

theorem reachable_filled : (hashMachine HashParams.identity).Reachable filled :=
  Machine.reachable_stateAfter _ _ _

theorem iterate_visits_all_filled :
    VisitsAll HashParams.identity asksFirst filled ↔
      LoopSafe HashParams.identity asksFirst filled :=
  iterate_visits_all HashParams.identity asksFirst reachable_filled (by decide) (by decide)

/-- The first node is that of key `4`, and it is the last one of the expanded table. -/
theorem not_visitsAll_filled :
    (hashMachine HashParams.identity).Reachable filled ∧
      AllHome HashParams.identity filled ∧ filled.entries ≠ [] ∧
      ¬ VisitsAll HashParams.identity asksFirst filled := by
  refine ⟨reachable_filled, by decide, by decide, ?_⟩
  rintro ⟨fuel, last, visited, hloop, hperm⟩
  have hlength : ((iterate HashParams.identity asksFirst 2 filled).map fun result =>
      result.2.length) = some 1 := by decide
  obtain ⟨result, hresult, hone⟩ := Option.map_eq_some_iff.mp hlength
  cases iterate_unique hresult hloop
  have hfive : filled.entries.length = 5 := by decide
  have hcount := hperm.length_eq
  rw [show visited.length = 1 from hone, hfive] at hcount
  cases hcount

end Whole

end Hash

end RedisDB
