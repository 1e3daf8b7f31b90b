import RedisDB.Library.Definedness
import RedisDB.SkipList.Basic

/-!
# Calls whose counters do not overflow

No call asks for the value of a counter: what overflows is cut off, and what does not is
the same in every type.  So a call that returns with bounded counters returns the same
with unbounded ones.
-/

namespace RedisDB

open RedisDB.Library RedisDB.IntType

namespace SkipList

variable {K V A : Type} {int : IntType} {s : SkipList K V} {level : Nat}

theorem eval_below (value : Int) : DefinedBelow (int.eval value) (unbounded.eval value) := by
  intro result hresult
  obtain ⟨-, rfl⟩ := eval_eq_some.mp hresult
  exact unbounded_eval value

theorem descend_below {stop : K → Bool} {down right right' : Nat → Nat → A → Option A}
    (hright : ∀ level nd acc, DefinedBelow (right level nd acc) (right' level nd acc))
    (fuel nd levels : Nat) (acc : A) :
    DefinedBelow (s.descend stop down right fuel nd levels acc)
      (s.descend stop down right' fuel nd levels acc) := by
  induction fuel generalizing nd levels acc with
  | zero => cases levels <;> exact .refl _
  | succ fuel ih =>
      cases levels with
      | zero => exact .refl _
      | succ level =>
          refine .bind_same _ fun next => .bind_same _ fun stops => .ite ?_ ?_
          · exact .bind_same _ fun acc => ih nd level acc
          · exact .bind (hright level nd acc) fun acc =>
              .bind_same _ fun nd => ih nd (level + 1) acc

/-! ## The calls -/

section Calls

variable {prevs : List (Option Nat)} {ranks : List Int}

theorem addRank_below (level nd : Nat) (acc : List (Option Nat) × List Int) :
    DefinedBelow (s.addRank int level nd acc) (s.addRank unbounded level nd acc) :=
  .bind_same _ fun _ => .bind_same _ fun _ => .bind (eval_below _) fun _ => .refl _

theorem addSpan_below (level nd : Nat) (result : Int) :
    DefinedBelow (s.addSpan int level nd result) (s.addSpan unbounded level nd result) :=
  .bind_same _ fun _ => eval_below _

theorem linkLevel_below (newNode i : Nat) :
    DefinedBelow (s.linkLevel int newNode level prevs ranks i)
      (s.linkLevel unbounded newNode level prevs ranks i) := by
  refine .bind_same _ fun _ => .bind_same _ fun _ => .bind_same _ fun _ =>
    .bind_same _ fun _ => .ite ?_ ?_
  · refine .bind_same _ fun _ => .bind_same _ fun _ => .bind (eval_below _) fun _ => ?_
    refine .bind (eval_below _) fun _ => .bind_same _ fun _ => ?_
    exact .bind (eval_below _) fun _ => .refl _
  · exact .bind (eval_below _) fun _ => .refl _

theorem linkLoop_below (newNode count : Nat) :
    DefinedBelow (s.linkLoop int newNode level prevs ranks count)
      (s.linkLoop unbounded newNode level prevs ranks count) := by
  induction count with
  | zero => exact .refl _
  | succ i ih => exact .bind ih fun _ => linkLevel_below newNode i

theorem unlinkLevel_below (nd i : Nat) :
    DefinedBelow (s.unlinkLevel int nd prevs i) (s.unlinkLevel unbounded nd prevs i) := by
  refine .bind_same _ fun _ => .bind_same _ fun _ => .bind_same _ fun _ =>
    .bind_same _ fun _ => .ite ?_ ?_
  · refine .bind_same _ fun _ => .bind (eval_below _) fun _ => ?_
    exact .bind (eval_below _) fun _ => .refl _
  · exact .bind (eval_below _) fun _ => .refl _

theorem unlinkLoop_below (nd count : Nat) :
    DefinedBelow (s.unlinkLoop int nd prevs count) (s.unlinkLoop unbounded nd prevs count) := by
  induction count with
  | zero => exact .refl _
  | succ i ih => exact .bind ih fun _ => unlinkLevel_below nd i

variable [LinearOrder K]

theorem insert_below (s : SkipList K V) (level : Nat) (k : K) (v : V) :
    DefinedBelow (s.insert int level k v) (s.insert unbounded level k v) := by
  refine .bind (descend_below addRank_below _ _ _ _) fun _ => .bind_same _ fun _ => ?_
  refine .bind (linkLoop_below _ _) fun _ => .bind_same _ fun _ => ?_
  exact .bind (eval_below _) fun _ => .refl _

theorem erase_below (s : SkipList K V) (k : K) :
    DefinedBelow (s.erase int k) (s.erase unbounded k) := by
  refine .bind_same _ fun _ => .bind_same _ fun _ => .ite (.refl _) ?_
  refine .bind_same _ fun _ => .bind_same _ fun _ => .ite (.refl _) ?_
  refine .bind (unlinkLoop_below _ _) fun _ => .bind_same _ fun _ => .bind_same _ fun _ => ?_
  exact .bind (eval_below _) fun _ => .refl _

theorem getRank_below (s : SkipList K V) (k : K) :
    DefinedBelow (s.getRank int k) (s.getRank unbounded k) :=
  .bind (descend_below addSpan_below _ _ _ _) fun _ => .refl _

/-- The length an insertion leaves is one its type holds. -/
theorem insert_holds {s' : SkipList K V} {k : K} {v : V} {done : Bool}
    (hinsert : s.insert int level k v = some (s', done)) : int.holds s'.mLength = true := by
  obtain ⟨_, -, hinsert⟩ := Option.bind_eq_some_iff.mp hinsert
  obtain ⟨_, -, hinsert⟩ := Option.bind_eq_some_iff.mp hinsert
  obtain ⟨_, -, hinsert⟩ := Option.bind_eq_some_iff.mp hinsert
  obtain ⟨_, -, hinsert⟩ := Option.bind_eq_some_iff.mp hinsert
  obtain ⟨length, hlength, hinsert⟩ := Option.bind_eq_some_iff.mp hinsert
  obtain ⟨hholds, rfl⟩ := eval_eq_some.mp hlength
  cases hinsert
  exact hholds

end Calls

end SkipList

end RedisDB
