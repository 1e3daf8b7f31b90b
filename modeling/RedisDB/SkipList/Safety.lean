import RedisDB.SkipList.OrderQueries

/-!
# Searches are safe

A search can be made to put down the level and the node of each of its steps.
On a list that stands for cells, no step of a search that returns is made at
the tail, outside an array or to a null pointer, whatever the search notes and
wherever it stops.  The counters are unbounded here: an overflow is no access.
-/

namespace RedisDB

open RedisDB.Library RedisDB.IntType

namespace SkipList

variable {K V A : Type} {s : SkipList K V} {cells : List (Cell K V)} {stop : K → Bool}
  {down right : Nat → Nat → A → Option A}

/-! ## The steps of a search -/

/-- A note of a search that puts down the level and the node of the step as well. -/
def traced (note : Nat → Nat → A → Option A) (level nd : Nat) (acc : A × List (Nat × Nat)) :
    Option (A × List (Nat × Nat)) :=
  (note level nd acc.1).map fun acc' => (acc', (level, nd) :: acc.2)

/-- The search with the notes of its steps. -/
def Search.traced (kind : Search K A) : Search K (A × List (Nat × Nat)) :=
  ⟨kind.stop, SkipList.traced kind.down, SkipList.traced kind.right, (kind.start, [])⟩

/-- A step reads a link and a span inside the arrays of a node other than the tail, and
the link leads to a node. -/
structure SafeStep (s : SkipList K V) (level nd : Nat) : Prop where
  not_tail : nd ≠ s.mTail
  inside : ∃ node, s.heap nd = some node ∧ level < node.mNexts.length ∧
    level < node.mSpans.length
  link : ∃ next, s.nextAt nd level = some (some next) ∧ (s.keyAt next).isSome

/-- The search returns, and each of its steps is safe. -/
def SafeSearch (s : SkipList K V) (kind : Search K A) : Prop :=
  ∃ nd acc steps, s.search kind = some (nd, acc) ∧
    s.search kind.traced = some (nd, acc, steps) ∧ ∀ step ∈ steps, s.SafeStep step.1 step.2

/-- A mark and the head can be left to the right on their level. -/
theorem LinkedAt.safeStep {level p q : Nat} (hshape : s.Shape cells)
    (hq : s.LinkedAt cells level p q) : s.SafeStep level (s.place cells p) where
  not_tail := hshape.place_ne_tail hq.le_length
  inside := by
    obtain ⟨node, hnode, hnext⟩ := Option.bind_eq_some_iff.mp hq.link
    have hspan := hq.span
    rw [spanAt, hnode, Option.bind_some] at hspan
    exact ⟨node, hnode, (List.getElem?_eq_some_iff.mp hnext).1,
      (List.getElem?_eq_some_iff.mp hspan).1⟩
  link := by
    refine ⟨_, hq.link, ?_⟩
    obtain ⟨q, rfl⟩ : ∃ q', q = q' + 1 := ⟨q - 1, by have := hq.next.lt; omega⟩
    rcases Nat.lt_or_ge q cells.length with hlt | hge
    · rw [hshape.keyAt_place (List.getElem?_eq_getElem hlt)]
      rfl
    · obtain rfl : q = cells.length := by have := hq.next.le; omega
      obtain ⟨payload, hpayload⟩ := hshape.tail_payload
      rw [place, addrAt_length, keyAt, hpayload]
      rfl

/-- A search that returns makes safe steps only: the induction is on its steps, and each
position it comes to is the head or a mark of the level. -/
theorem descend_safe [LinearOrder K] (hrep : s.Represents cells) (fuel : Nat)
    {levels p nd : Nat} {acc acc' : A} {before : List (Nat × Nat)}
    (hlevels : levels ≤ s.mMaxLevel + 1) (hmark : p = 0 ∨ tall cells (levels - 1) p)
    (hrun : s.descend stop down right fuel (s.place cells p) levels acc = some (nd, acc'))
    (hbefore : ∀ step ∈ before, s.SafeStep step.1 step.2) :
    ∃ steps, s.descend stop (traced down) (traced right) fuel (s.place cells p) levels
        (acc, before) = some (nd, acc', steps) ∧
      ∀ step ∈ steps, s.SafeStep step.1 step.2 := by
  induction fuel generalizing levels p acc before with
  | zero =>
      cases levels with
      | zero =>
          cases hrun
          exact ⟨before, rfl, hbefore⟩
      | succ level => cases hrun
  | succ fuel ih =>
      cases levels with
      | zero =>
          cases hrun
          exact ⟨before, rfl, hbefore⟩
      | succ level =>
          obtain ⟨q, hq⟩ := hrep.linked level (by omega) p hmark
          have hsafe := hq.safeStep hrep.shape
          have hmore : ∀ step ∈ (level, s.place cells p) :: before, s.SafeStep step.1 step.2 :=
            List.forall_mem_cons.mpr ⟨hq.safeStep hrep.shape, hbefore⟩
          simp only [descend, hq.link, Option.bind_eq_bind, Option.bind_some] at hrun ⊢
          cases hstop : s.stopsAt stop (some (s.place cells q)) with
          | none => simp [hstop] at hrun
          | some stops =>
              cases stops with
              | true =>
                  cases hnote : down level (s.place cells p) acc with
                  | none => simp [hstop, hnote] at hrun
                  | some next =>
                      have htraced : traced down level (s.place cells p) (acc, before) =
                          some (next, (level, s.place cells p) :: before) := by
                        simp [traced, hnote]
                      have hlower : p = 0 ∨ tall cells (level - 1) p :=
                        hmark.imp id fun htall => htall.mono (by omega)
                      simp only [hstop, hnote, htraced, Option.bind_some, if_true] at hrun ⊢
                      exact ih (by omega) hlower hrun hmore
              | false =>
                  cases hnote : right level (s.place cells p) acc with
                  | none => simp [hstop, hnote] at hrun
                  | some next =>
                      have htraced : traced right level (s.place cells p) (acc, before) =
                          some (next, (level, s.place cells p) :: before) := by
                        simp [traced, hnote]
                      have hq' : q ≤ cells.length := by
                        by_contra hend
                        obtain rfl : q = cells.length + 1 := by have := hq.next.le; omega
                        simp [stopsAt, place] at hstop
                      have hright : q = 0 ∨ tall cells (level + 1 - 1) q :=
                        .inr (hq.next.mark hq')
                      simp only [hstop, hnote, htraced, Option.bind_some, Bool.false_eq_true,
                        if_false] at hrun ⊢
                      exact ih hlevels hright hrun hmore

section Searches

variable [LinearOrder K]

theorem Represents.safeSearch (hrep : s.Represents cells) {kind : Search K A} {nd : Nat} {acc : A}
    (hrun : s.search kind = some (nd, acc)) : s.SafeSearch kind := by
  have hnone : ∀ step ∈ ([] : List (Nat × Nat)), s.SafeStep step.1 step.2 := by simp
  obtain ⟨steps, htraced, hsafe⟩ :=
    descend_safe hrep s.searchFuel (p := 0) (Nat.le_refl _) (.inl rfl) hrun hnone
  exact ⟨nd, acc, steps, hrun, htraced, hsafe⟩

/-! ## The predecessors a search notes -/

/-- Every entry of `prevs` up to a level is set, to a node that has that level. -/
def PrevsSet (s : SkipList K V) (top : Nat) (prevs : List (Option Nat)) : Prop :=
  ∀ i, i ≤ top → ∃ prev, prevs[i]? = some (some prev) ∧ s.SafeStep i prev

omit [LinearOrder K] in
theorem PrevNoted.prevsSet {prevs : List (Option Nat)} {m top : Nat} (hshape : s.Shape cells)
    (hlinked : ∀ i, i ≤ top → s.Linked cells i)
    (hnoted : ∀ i, i ≤ top → s.PrevNoted cells m prevs i) : s.PrevsSet top prevs := by
  intro i hi
  obtain ⟨p, hprev, hentry⟩ := hnoted i hi
  obtain ⟨q, hq⟩ := hlinked i hi p hprev.mark
  exact ⟨_, hentry, hq.safeStep hshape⟩

/-- The search of `insert` is safe, and after the levels are raised every predecessor is
set. -/
def SafeInsert (s : SkipList K V) (level : Nat) (k : K) (v : V) : Prop :=
  ∃ s₁ newNode nd prevs ranks s₂ prevs₂,
    s.alloc (SkipListNode.newLevel k v (level + 1)) = (s₁, newNode) ∧
    s₁.SafeSearch (s₁.insertSearch unbounded (max s₁.mMaxLevel level) k) ∧
    s₁.search (s₁.insertSearch unbounded (max s₁.mMaxLevel level) k) =
      some (nd, prevs, ranks) ∧
    s₁.raise level prevs = some (s₂, prevs₂) ∧ s₂.PrevsSet (max s₁.mMaxLevel level) prevs₂

/-- The search of `erase` is safe and sets every predecessor. -/
def SafeErase (s : SkipList K V) (k : K) : Prop :=
  s.SafeSearch (s.eraseSearch k) ∧
    ∃ nd prevs, s.search (s.eraseSearch k) = some (nd, prevs) ∧ s.PrevsSet s.mMaxLevel prevs

theorem Represents.safeInsert (hrep : s.Represents cells) (level : Nat) (k : K) (v : V) :
    s.SafeInsert level k v := by
  obtain ⟨below, equal, above, hsplit⟩ := hrep.split k
  have hrep₁ : (s.alloc (SkipListNode.newLevel k v (level + 1))).1.Represents cells := hrep.alloc
  obtain ⟨nd, prevs, ranks, hsearch, hlength, hnoted, -⟩ :=
    insert_search_spec (unbounded_holdsUpTo _) (Nat.le_refl _) hrep₁ hsplit.upper_turnsAt
      (Nat.le_max_left _ level)
  obtain ⟨s₂, prevs₂, hraise, hsame, -, hlinked, hnoted₂⟩ := raise_spec hrep₁ hlength hnoted
  exact ⟨_, _, nd, prevs, ranks, s₂, prevs₂, rfl, hrep₁.safeSearch hsearch, hsearch, hraise,
    PrevNoted.prevsSet (hrep₁.shape.of_sameNodes hsame) hlinked hnoted₂⟩

theorem Represents.safeErase (hrep : s.Represents cells) (k : K) : s.SafeErase k := by
  obtain ⟨below, equal, above, hsplit⟩ := hrep.split k
  obtain ⟨prevs, hsearch, hnoted⟩ := erase_search_spec hrep hsplit.lower_turnsAt
  exact ⟨hrep.safeSearch hsearch, _, prevs, hsearch,
    PrevNoted.prevsSet hrep.shape hrep.linked hnoted⟩

/-! ## Runs -/

/-- A bound returns for every key, in the range of the list or not. -/
theorem Represents.bound_returns (hrep : s.Represents cells) {k₀ : K} {v₀ : V}
    (hholds : s.SentinelsHold k₀ v₀) {n : Nat} (hturns : TurnsAt stop cells n) (k : K) :
    ∃ nd, s.bound stop k = some nd := by
  obtain ⟨admits, hrange⟩ : ∃ admits, s.isInRange k = some admits := by
    by_cases hne : cells = []
    · subst hne
      exact ⟨_, hrep.isInRange_nil hholds⟩
    · by_cases hin : InRange cells k
      · exact ⟨_, (hrep.isInRange hne).1 hin⟩
      · exact ⟨_, (hrep.isInRange hne).2 hin⟩
  cases admits with
  | true => exact ⟨_, bound_spec hrep hturns hrange⟩
  | false => exact ⟨_, bound_outside hrange⟩

theorem Represents.rank_safeSearch (hrep : s.Represents cells) (k : K) :
    s.SafeSearch (s.rankSearch unbounded k) := by
  have hcut := hrep.cut_le k
  exact hrep.safeSearch (rank_search_spec (unbounded_holdsUpTo _) (Nat.le_refl _) (hcut ▸ hrep)
    (fun cell hcell => of_decide_eq_true (List.mem_filter.mp hcell).2)
    (fun cell hcell => of_decide_eq_true (List.mem_filter.mp hcell).2))

/-- After every run, every further call returns, for all arguments and all levels, and so
does every bound; the searches they make are safe and all predecessors are set. -/
theorem run_safe (k₀ : K) (v₀ : V) (calls : List (SkipCall K V)) :
    ∃ s answers, RunsTo k₀ v₀ calls s answers ∧
      (∀ level k v, (∃ s', s.insert unbounded level k v = some (s', true)) ∧
        s.SafeInsert level k v) ∧
      (∀ k, (∃ s' found, s.erase unbounded k = some (s', found)) ∧ s.SafeErase k) ∧
      (∀ k, (∃ rank, s.getRank unbounded k = some rank) ∧
        s.SafeSearch (s.rankSearch unbounded k)) ∧
      (∀ k, (∃ nd, s.lower_bound k = some nd) ∧
        s.SafeSearch (boundSearch fun key => k ≤ key)) ∧
      ∀ k, (∃ nd, s.upper_bound k = some nd) ∧
        s.SafeSearch (boundSearch fun key => k < key) := by
  obtain ⟨s, hrun, hmodels, hholds⟩ := run_models_sentinels k₀ v₀ calls
  obtain ⟨cells, hrep, -⟩ := id hmodels
  refine ⟨s, _, hrun, fun level k v => ⟨?_, hrep.safeInsert level k v⟩,
    fun k => ⟨?_, hrep.safeErase k⟩,
    fun k => ⟨⟨_, hmodels.getRank (unbounded_holdsUpTo _) (Nat.le_refl _) k⟩,
      hrep.rank_safeSearch k⟩,
    fun k => ?_, fun k => ?_⟩
  · obtain ⟨s', hinsert, -⟩ := hmodels.insert (unbounded_holdsUpTo _) level k v (Nat.le_refl _)
    exact ⟨s', hinsert⟩
  · obtain ⟨s', herase, -⟩ := hmodels.erase (unbounded_holdsUpTo _) (Nat.le_refl _) k
    exact ⟨s', _, herase⟩
  · obtain ⟨below, equal, above, hsplit⟩ := hrep.split k
    exact ⟨hrep.bound_returns hholds hsplit.lower_turnsAt k,
      hrep.safeSearch (bound_search_spec hrep hsplit.lower_turnsAt)⟩
  · obtain ⟨below, equal, above, hsplit⟩ := hrep.split k
    exact ⟨hrep.bound_returns hholds hsplit.upper_turnsAt k,
      hrep.safeSearch (bound_search_spec hrep hsplit.upper_turnsAt)⟩

end Searches

end SkipList

end RedisDB
