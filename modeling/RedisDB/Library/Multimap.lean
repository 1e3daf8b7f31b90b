import Mathlib.Order.Lattice
import Mathlib.Data.List.Basic

/-!
# Stable sorted multimaps

A multimap keeps its entries in the order of their keys and entries of one key
in the order of their insertion.  Every entry carries the time it came in, so
that the oldest entry of a key is a notion of its own and not a place in a list.
-/

namespace RedisDB.Library

variable {T K V : Type}

/-! ## Sorted sequences cut at a predicate -/

/-- A list whose later elements have a property only if the earlier ones do is cut in two
by it. -/
theorem filter_append_filter_not {p : T → Bool} {l : List T}
    (hdown : l.Pairwise fun a b => p b = true → p a = true) :
    l.filter p ++ l.filter (fun a => !p a) = l := by
  induction l with
  | nil => rfl
  | cons a l ih =>
      obtain ⟨hhead, htail⟩ := List.pairwise_cons.mp hdown
      cases ha : p a with
      | true => simp [ha, ih htail]
      | false =>
          have hnone : ∀ b ∈ l, p b = false := by
            intro b hb
            by_contra habsurd
            have := hhead b hb (Bool.not_eq_false _ ▸ habsurd)
            simp [ha] at this
          have hleft : l.filter p = [] := List.filter_eq_nil_iff.mpr fun b hb => by
            simp [hnone b hb]
          have hright : l.filter (fun b => !p b) = l := List.filter_eq_self.mpr fun b hb => by
            simp [hnone b hb]
          simp [ha, hleft, hright]

/-- An entry of a multimap and the time of its insertion. -/
structure Entry (K V : Type) where
  key : K
  value : V
  stamp : Nat

/-- Entries in the order of their keys and, for equal keys, of their insertion. -/
structure Multimap (K V : Type) [LinearOrder K] where
  entries : List (Entry K V)
  clock : Nat
  ordered : entries.Pairwise fun first second =>
    first.key < second.key ∨ first.key = second.key ∧ first.stamp < second.stamp
  past : ∀ entry ∈ entries, entry.stamp < clock

namespace Multimap

variable [LinearOrder K] {m : Multimap K V} {k : K}

/-- The keys and values in order. -/
def toList (m : Multimap K V) : List (K × V) :=
  m.entries.map fun entry => (entry.key, entry.value)

def empty : Multimap K V :=
  ⟨[], 0, List.Pairwise.nil, by simp⟩

/-- The entries of keys up to `k`, a new entry, and the entries of greater keys. -/
def insert (m : Multimap K V) (k : K) (v : V) : Multimap K V where
  entries := m.entries.filter (fun entry => entry.key ≤ k) ++
    ⟨k, v, m.clock⟩ :: m.entries.filter (fun entry => k < entry.key)
  clock := m.clock + 1
  ordered := by
    refine List.pairwise_append.mpr ⟨m.ordered.filter _,
      List.pairwise_cons.mpr ⟨fun later hlater => ?_, m.ordered.filter _⟩,
      fun earlier hearlier later hlater => ?_⟩
    · exact .inl (of_decide_eq_true (List.mem_filter.mp hlater).2)
    · obtain ⟨hmem, hle⟩ := List.mem_filter.mp hearlier
      have hle := of_decide_eq_true hle
      rcases List.mem_cons.mp hlater with rfl | hgreater
      · exact (lt_or_eq_of_le hle).imp id fun heq => ⟨heq, m.past earlier hmem⟩
      · exact .inl (lt_of_le_of_lt hle (of_decide_eq_true (List.mem_filter.mp hgreater).2))
  past := by
    intro entry hentry
    rcases List.mem_append.mp hentry with hold | hnew
    · exact Nat.lt_succ_of_lt (m.past entry (List.mem_filter.mp hold).1)
    · rcases List.mem_cons.mp hnew with rfl | hold
      · exact Nat.lt_succ_self _
      · exact Nat.lt_succ_of_lt (m.past entry (List.mem_filter.mp hold).1)

/-- The entry is the first inserted of those of the key that are left. -/
def Oldest (m : Multimap K V) (k : K) (entry : Entry K V) : Prop :=
  entry.key = k ∧ ∀ other ∈ m.entries, other.key = k → entry.stamp ≤ other.stamp

instance (m : Multimap K V) (k : K) (entry : Entry K V) : Decidable (m.Oldest k entry) :=
  inferInstanceAs (Decidable (_ ∧ _))

def contains (m : Multimap K V) (k : K) : Bool :=
  m.entries.any fun entry => entry.key = k

/-- The oldest entry of the key is removed, if there is one. -/
def erase (m : Multimap K V) (k : K) : Multimap K V × Bool :=
  if m.contains k then
    (⟨m.entries.filter (fun entry => !decide (m.Oldest k entry)), m.clock, m.ordered.filter _,
      fun entry hentry => m.past entry (List.mem_filter.mp hentry).1⟩, true)
  else (m, false)

/-- The number of entries with keys up to a key that is there, and `0` for others. -/
def rank (m : Multimap K V) (k : K) : Nat :=
  if m.contains k then (m.entries.filter fun entry => entry.key ≤ k).length else 0

/-! ## Multimaps as lists -/

theorem toList_insert (m : Multimap K V) (k : K) (v : V) :
    (m.insert k v).toList =
      m.toList.filter (fun e => e.1 ≤ k) ++ (k, v) :: m.toList.filter (fun e => k < e.1) := by
  simp only [toList, insert, List.map_append, List.map_cons, List.filter_map]
  rfl

theorem length_insert (m : Multimap K V) (k : K) (v : V) :
    (m.insert k v).toList.length = m.toList.length + 1 := by
  have hsplit := List.length_eq_length_filter_add (l := m.toList) fun e => decide (e.1 ≤ k)
  have hhigh : m.toList.filter (fun e => !decide (e.1 ≤ k)) =
      m.toList.filter fun e => k < e.1 :=
    List.filter_congr fun e _ => by simp [← not_le]
  rw [toList_insert, List.length_append, List.length_cons, hsplit, hhigh]
  rfl

theorem length_erase_le (m : Multimap K V) (k : K) :
    (m.erase k).1.toList.length ≤ m.toList.length := by
  unfold erase
  split
  · rw [toList, toList, List.length_map, List.length_map]
    exact List.length_filter_le _ _
  · exact Nat.le_refl _

theorem contains_iff : m.contains k = true ↔ ∃ e ∈ m.toList, e.1 = k := by
  simp [contains, toList]

theorem rank_eq (m : Multimap K V) (k : K) :
    m.rank k = if m.contains k then (m.toList.filter fun e => e.1 ≤ k).length else 0 := by
  rw [rank, toList, List.filter_map, List.length_map]
  rfl

/-- The oldest entry of a key stands first among the entries not below the key. -/
theorem entries_of_contains (hcontains : m.contains k = true) :
    ∃ before entry after, m.entries = before ++ entry :: after ∧ entry.key = k ∧
      before = m.entries.filter (fun entry => entry.key < k) ∧
      entry :: after = m.entries.filter (fun entry => !decide (entry.key < k)) := by
  have hcut : m.entries.filter (fun entry => entry.key < k) ++
      m.entries.filter (fun entry => !decide (entry.key < k)) = m.entries := by
    refine filter_append_filter_not (m.ordered.imp fun {first second} horder hlow => ?_)
    have hle : first.key ≤ second.key := horder.elim le_of_lt fun hsame => le_of_eq hsame.1
    exact decide_eq_true (lt_of_le_of_lt hle (of_decide_eq_true hlow))
  obtain ⟨found, hfound, hkey⟩ := List.any_eq_true.mp hcontains
  have hkey := of_decide_eq_true hkey
  cases hrest : m.entries.filter (fun entry => !decide (entry.key < k)) with
  | nil =>
      have hnone := List.filter_eq_nil_iff.mp hrest found hfound
      simp [hkey] at hnone
  | cons entry after =>
      refine ⟨_, entry, after, by rw [← hrest, hcut], ?_, rfl, rfl⟩
      have hge : k ≤ entry.key := by
        have hmem : entry ∈ m.entries.filter (fun entry => !decide (entry.key < k)) :=
          hrest ▸ List.mem_cons_self
        simpa using (List.mem_filter.mp hmem).2
      have hfound' : found ∈ entry :: after := by
        rw [← hrest]
        exact List.mem_filter.mpr ⟨hfound, by simp [hkey]⟩
      have hsorted := m.ordered.filter (fun entry => !decide (entry.key < k))
      rw [hrest] at hsorted
      rcases List.mem_cons.mp hfound' with rfl | hlater
      · exact hkey
      · have horder := (List.pairwise_cons.mp hsorted).1 found hlater
        have hle : entry.key ≤ found.key := horder.elim le_of_lt fun hsame => le_of_eq hsame.1
        exact le_antisymm (hkey ▸ hle) hge

/-- Removing the oldest entry of a key removes the first with the key. -/
theorem entries_erase {before after : List (Entry K V)} {entry : Entry K V}
    (hentries : m.entries = before ++ entry :: after) (hkey : entry.key = k)
    (hbelow : ∀ other ∈ before, other.key < k) :
    (m.erase k).1.entries = before ++ after := by
  have hcontains : m.contains k = true :=
    List.any_eq_true.mpr ⟨entry, by simp [hentries], decide_eq_true hkey⟩
  have hordered := m.ordered
  rw [hentries] at hordered
  have hlater := (List.pairwise_cons.mp (List.pairwise_append.mp hordered).2.1).1
  have holdest : m.Oldest k entry := by
    refine ⟨hkey, fun other hother hsame => ?_⟩
    rw [hentries] at hother
    rcases List.mem_append.mp hother with hin | hin
    · exact absurd hsame (ne_of_lt (hbelow other hin))
    · rcases List.mem_cons.mp hin with rfl | hin
      · exact Nat.le_refl _
      · rcases hlater other hin with hlt | ⟨-, hlt⟩
        · exact absurd (hkey.trans hsame.symm) (ne_of_lt hlt)
        · exact Nat.le_of_lt hlt
  have hbefore : before.filter (fun e => !decide (m.Oldest k e)) = before := by
    refine List.filter_eq_self.mpr fun other hother => ?_
    have hnot : ¬ m.Oldest k other := fun hold => ne_of_lt (hbelow other hother) hold.1
    simp [hnot]
  have hafter : after.filter (fun e => !decide (m.Oldest k e)) = after := by
    refine List.filter_eq_self.mpr fun other hother => ?_
    have hnot : ¬ m.Oldest k other := by
      intro hold
      rcases hlater other hother with hlt | ⟨-, hlt⟩
      · exact ne_of_lt hlt (hkey.trans hold.1.symm)
      · exact absurd (hold.2 entry (by simp [hentries]) hkey) (Nat.not_le.mpr hlt)
    simp [hnot]
  rw [erase, if_pos hcontains]
  dsimp only
  rw [hentries, List.filter_append, List.filter_cons, if_neg (by simp [holdest]), hbefore,
    hafter]

theorem toList_erase (hcontains : m.contains k = true) :
    (m.erase k).1.toList = m.toList.filter (fun e => e.1 < k) ++
      (m.toList.filter fun e => !decide (e.1 < k)).tail := by
  obtain ⟨before, entry, after, hentries, hkey, hbefore, hafter⟩ :=
    entries_of_contains hcontains
  have hbelow : ∀ other ∈ before, other.key < k := by
    intro other hother
    rw [hbefore] at hother
    exact of_decide_eq_true (List.mem_filter.mp hother).2
  have hlow : m.toList.filter (fun e => e.1 < k) =
      before.map fun entry => (entry.key, entry.value) := by
    rw [hbefore, toList, List.filter_map]
    rfl
  have hhigh : (m.toList.filter fun e => !decide (e.1 < k)) =
      (entry :: after).map fun entry => (entry.key, entry.value) := by
    rw [hafter, toList, List.filter_map]
    rfl
  rw [hlow, hhigh, toList, entries_erase hentries hkey hbelow, List.map_append]
  rfl

theorem erase_of_not_contains (hcontains : m.contains k = false) :
    m.erase k = (m, false) := by
  rw [erase, hcontains]
  rfl

theorem erase_snd (m : Multimap K V) (k : K) : (m.erase k).2 = m.contains k := by
  unfold erase
  cases m.contains k <;> rfl

/-! ## The values of one key -/

/-- The values of a key in the order of their insertion. -/
def valuesOf (m : Multimap K V) (k : K) : List V :=
  (m.entries.filter fun entry => entry.key = k).map (·.value)

theorem filter_toList_key (m : Multimap K V) (k : K) :
    (m.toList.filter fun e => e.1 = k) = (m.valuesOf k).map fun v => (k, v) := by
  rw [toList, valuesOf, List.filter_map, List.map_map]
  refine List.map_congr_left fun entry hentry => ?_
  have hkey := of_decide_eq_true (List.mem_filter.mp hentry).2
  exact Prod.ext hkey rfl

/-- A part of the entries cut out by their keys has all entries of a key or none. -/
theorem filter_key_filter (part : K → Bool) (l : List (Entry K V)) (k : K) :
    ((l.filter fun entry => part entry.key).filter fun entry => entry.key = k) =
      if part k then l.filter (fun entry => entry.key = k) else [] := by
  rw [List.filter_filter]
  split
  · refine List.filter_congr fun entry _ => ?_
    by_cases hkey : entry.key = k <;> simp [*]
  · refine List.filter_eq_nil_iff.mpr fun entry _ => ?_
    by_cases hkey : entry.key = k <;> simp [*]

theorem valuesOf_insert (m : Multimap K V) (k' : K) (v : V) :
    (m.insert k' v).valuesOf k = if k' = k then m.valuesOf k ++ [v] else m.valuesOf k := by
  have hlow := filter_key_filter (fun key => key ≤ k') m.entries k
  have hhigh := filter_key_filter (fun key => k' < key) m.entries k
  simp only [valuesOf, insert, List.filter_append, List.filter_cons, hlow, hhigh]
  rcases lt_trichotomy k k' with hlt | rfl | hgt
  · simp [hlt.le, hlt.not_gt, hlt.ne']
  · simp
  · simp [hgt, hgt.not_ge, hgt.ne]

theorem valuesOf_erase (m : Multimap K V) (k' : K) :
    (m.erase k').1.valuesOf k = if k' = k then (m.valuesOf k).tail else m.valuesOf k := by
  cases hcontains : m.contains k' with
  | false =>
      rw [erase_of_not_contains hcontains]
      split
      · rename_i hkey
        subst hkey
        have hnone : m.valuesOf k' = [] := by
          rw [valuesOf, List.map_eq_nil_iff]
          exact List.filter_eq_nil_iff.mpr (List.any_eq_false.mp hcontains)
        rw [hnone]
        rfl
      · rfl
  | true =>
      obtain ⟨before, entry, after, hentries, hkey, hbefore, -⟩ :=
        entries_of_contains hcontains
      have hbelow : ∀ other ∈ before, other.key < k' := by
        intro other hother
        rw [hbefore] at hother
        exact of_decide_eq_true (List.mem_filter.mp hother).2
      rw [valuesOf, valuesOf, entries_erase hentries hkey hbelow, hentries, List.filter_append,
        List.filter_append, List.filter_cons, hkey]
      split
      · rename_i hsame
        subst hsame
        have hnone : (before.filter fun other => other.key = k') = [] :=
          List.filter_eq_nil_iff.mpr fun other hother => by
            simpa using (hbelow other hother).ne
        rw [hnone]
        simp
      · rename_i hne
        rw [if_neg (by simpa using hne)]

end Multimap

end RedisDB.Library
