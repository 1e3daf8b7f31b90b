import RedisDB.Hash.Lookup
import Mathlib.Logic.Function.Basic

/-!
# `HashMap` against a finite map

The reference map is a function from keys to optional values.  A map whose
nodes lie at home and whose keys are distinct answers every call as the
reference does, as long as the calls that start an expansion are harmless: they
compute the bucket index under the mask that the expansion replaces.
-/

namespace RedisDB

open RedisDB.Library

variable {K T V : Type}

/-- The calls of a `HashMap`. -/
inductive MapCall (K V : Type) where
  | insert (key : K) (v : V)
  | erase (key : K)
  | get (key : K)
  | isExist (key : K)

inductive MapAnswer (V : Type) where
  | done
  | status (found : Bool)
  | value (result : Except OutOfRange V)
  deriving DecidableEq

section Machines

variable [DecidableEq K]

def mapStep (params : HashParams K (K × V)) (h : Hash (K × V)) :
    MapCall K V → Option (Hash (K × V) × MapAnswer V)
  | .insert key v => (HashMap.insert params h key v).map fun h => (h, .done)
  | .erase key => (h.erase params key).map fun r => (r.1, .status r.2)
  | .get key => (HashMap.get params h key).map fun r => (r.1, .value r.2)
  | .isExist key => (h.isExist params key).map fun r => (r.1, .status r.2)

def mapMachine (params : HashParams K (K × V)) :
    Machine (Hash (K × V)) (MapCall K V) (MapAnswer V) :=
  ⟨Hash.new, mapStep params⟩

/-- The reference finite map. -/
def refMapStep (ref : K → Option V) : MapCall K V → (K → Option V) × MapAnswer V
  | .insert key v => (Function.update ref key (some v), .done)
  | .erase key => (Function.update ref key none, .status (ref key).isSome)
  | .get key =>
      (ref, .value (match ref key with
        | some v => .ok v
        | none => .error (.outOfRange "key not exist in hash")))
  | .isExist key => (ref, .status (ref key).isSome)

/-- `insert` is only called for an absent key. -/
def AdmitsInsert (ref : K → Option V) : MapCall K V → Prop
  | .insert key _ => ref key = none
  | _ => True

instance (ref : K → Option V) : (call : MapCall K V) → Decidable (AdmitsInsert ref call)
  | .insert key _ => inferInstanceAs (Decidable (ref key = none))
  | .erase _ | .get _ | .isExist _ => .isTrue trivial

end Machines

namespace Hash

/-- The lookup of a key reads the right bucket although the call starts an expansion:
the hash lacks the bit the new mask adds, or its old bucket is not among the two moved,
or no entry has the key. -/
def LooksHome (params : HashParams K T) (h : Hash T) (key : K) : Prop :=
  (params.mHasher key).toNat &&& h.mActive.mBucketsNumber = 0 ∨
    2 ≤ params.index (h.mActive.mBucketsNumber - 1) key ∨
    ∀ node ∈ h.entries, params.getKey node.mValue ≠ key

/-- The condition under which a call does what the reference map does.  It only speaks
of calls that start an expansion; the table must also be one the constructor can make. -/
def Harmless (params : HashParams K (K × V)) (h : Hash (K × V)) (call : MapCall K V) : Prop :=
  h.isReHashing = false → h.isNeedReHash params = true →
    h.mActive.mSize ≤ 2 ^ 30 ∧
      match call with
      | .insert key _ => (params.mHasher key).toNat &&& h.mActive.mBucketsNumber = 0
      | .erase key => LooksHome params h key
      | .get key => LooksHome params h key
      | .isExist key => LooksHome params h key

instance [DecidableEq K] (params : HashParams K T) (h : Hash T) (key : K) :
    Decidable (LooksHome params h key) :=
  inferInstanceAs (Decidable (_ ∨ _ ∨ _))

instance [DecidableEq K] (params : HashParams K (K × V)) (h : Hash (K × V)) :
    (call : MapCall K V) → Decidable (Harmless params h call)
  | .insert _ _ => inferInstanceAs (Decidable (_ → _ → _ ∧ _))
  | .erase _ => inferInstanceAs (Decidable (_ → _ → _ ∧ _))
  | .get _ => inferInstanceAs (Decidable (_ → _ → _ ∧ _))
  | .isExist _ => inferInstanceAs (Decidable (_ → _ → _ ∧ _))

/-! ## The bucket read by a call that starts an expansion -/

/-- Right after the start of an expansion the new table holds nodes of the first two
buckets only. -/
theorem started_expansion {params : HashParams K T} {h middle : Hash T}
    (hinv : RehashInvariant h) (hpaced : Paced params.factors 1 h)
    (hbackup : h.mBackup = none) (hneed : h.isNeedReHash params = true)
    (hrehash : h.rehash params 2 true = some middle) :
    ∃ backup, middle.mBackup = some backup ∧
      ∀ node ∈ backup.entries, ∃ index < 2, node ∈ h.mActive.getBucketHead index := by
  obtain ⟨table, hstarted, hrest⟩ := rehash_of_due hinv hbackup (.inl hneed) hrehash
  have hdouble := (hpaced.resting_of_none hbackup).growth_target hinv hneed hstarted.count
  have hfour := hinv.active_count.four_le
  have hbusy : (h.startedState table).Busy table 0 := ⟨rfl, rfl⟩
  obtain ⟨active, received, -, hreceived, hresult⟩ := rehash_of_busy 2 true hbusy
    (show 0 < h.mActive.mBucketsNumber by omega) (hstarted.invariant.home_lt params rfl)
  have hstep : calculateReHashStep h.mActive table = 2 :=
    step_of_double (by omega) hdouble
  have hindex : (h.startedState table).nextIndex table 0 2 true = 2 := by
    rw [nextIndex, if_pos rfl]
    change min (0 + calculateReHashStep h.mActive table) h.mActive.mBucketsNumber = 2
    omega
  have hmore : ¬ 2 = (h.startedState table).mActive.mBucketsNumber := by
    change ¬ 2 = h.mActive.mBucketsNumber
    omega
  rw [hindex] at hreceived hresult
  rw [hresult, if_neg hmore] at hrest
  refine ⟨received, by rw [← Option.some.inj hrest]; rfl, fun node hnode => ?_⟩
  rw [hreceived.contents.mem_iff, hstarted.empty, List.append_nil, nodesFrom,
    List.mem_flatMap] at hnode
  obtain ⟨index, hrange, hmem⟩ := hnode
  exact ⟨index, by have := List.mem_range'_1.mp hrange; omega, hmem⟩

/-- After a harmless opening step the index read before it still finds every node. -/
theorem finds_of_looksHome {params : HashParams K T} {h middle : Hash T} {key : K}
    (hinv : RehashInvariant h) (hpaced : Paced params.factors 1 h) (hhome : AllHome params h)
    (hadvance : h.advance params = some middle)
    (hlooks : h.isReHashing = false → h.isNeedReHash params = true → LooksHome params h key) :
    Finds params middle (params.index h.mBucketsMask key) key := by
  have hmiddle := rehashed_of_advance hinv hadvance
  have hmiddleHome : AllHome params middle :=
    placed_advance (admitsHome_home params) hinv hhome hadvance
  have hfinds := finds_of_home hmiddle.invariant hmiddleHome key
  have hnumber := number_of_advance hinv hpaced hadvance
  rw [hmiddle.invariant.mask] at hfinds
  rw [hinv.mask]
  split at hnumber
  · rename_i hstarts
    obtain ⟨hidle, hneed⟩ := hstarts
    have hbackup := hinv.none_of_isReHashing hidle
    have hactive := hinv.idle_number (hinv.idle_of_none hbackup)
    rcases hlooks hidle hneed with hbit | hlate | hnot
    · rw [hactive] at hbit
      rwa [hnumber, (index_double hinv.number_count key).mpr hbit] at hfinds
    · -- the bucket has not been moved yet
      have hrehash : h.rehash params 2 true = some middle := by
        rw [advance, hidle, hneed] at hadvance
        exact hadvance
      obtain ⟨backup, hsome, hmoved⟩ := started_expansion hinv hpaced hbackup hneed hrehash
      intro node hnode hkey
      refine (sought_of_backup hsome).mpr (.inr ?_)
      rw [entries_of_some hsome, List.mem_append] at hnode
      rcases hnode with hold | hnew
      · obtain ⟨index, hindex⟩ := HashTable.mem_entries.mp hold
        have hat : params.home _ node = index := hmiddleHome.1 index node hindex
        rw [HashParams.home, hkey] at hat
        rwa [hat]
      · obtain ⟨index, hlt, hindex⟩ := hmoved node hnew
        have hat : params.home _ node = index := hhome.1 index node hindex
        rw [HashParams.home, hkey] at hat
        omega
    · intro node hnode hkey
      exact absurd hkey (hnot node (hmiddle.contents.mem_iff.mp hnode))
  · rwa [hnumber] at hfinds

/-! ## The simulation -/

/-- A state of the map stands for a reference map. -/
structure Represents (params : HashParams K (K × V)) (h : Hash (K × V))
    (ref : K → Option V) : Prop where
  invariant : RehashInvariant h
  paced : Paced params.factors 1 h
  home : AllHome params h
  unique : (h.keys params).Nodup
  contents : ∀ key v, ref key = some v ↔ ∃ node ∈ h.entries, node.mValue = (key, v)

section Simulation

variable [DecidableEq K] {mHasher : K → BitVec 64} {factors : LoadFactors}
  {h middle : Hash (K × V)} {ref : K → Option V}

omit [DecidableEq K] in
theorem represents_new :
    Represents (HashParams.map mHasher factors) (new : Hash (K × V)) fun _ => none where
  invariant := RehashInvariant.new
  paced := Paced.new factors
  home := placed_new
  unique := List.nodup_nil
  contents key v := by simp [entries, new, emptyTable, HashTable.entries]

/-- The reference knows the value of the node that a lookup finds. -/
theorem Represents.lookup (hrep : Represents (HashParams.map mHasher factors) h ref)
    (hperm : middle.entries.Perm h.entries) {index : Nat} {key : K}
    (hfinds : Finds (HashParams.map mHasher factors) middle index key) :
    (middle.lookup (HashParams.map mHasher factors) index key).map (fun node => node.mValue.2) =
      ref key := by
  have hunique := nodup_keys_of_perm hrep.unique hperm
  cases hlookup : middle.lookup (HashParams.map mHasher factors) index key with
  | some node =>
      obtain ⟨hkey, hmem⟩ := lookup_eq_some hlookup
      exact ((hrep.contents key node.mValue.2).mpr
        ⟨node, hperm.mem_iff.mp hmem, Prod.ext hkey rfl⟩).symm
  | none =>
      cases hknown : ref key with
      | none => rfl
      | some v =>
          obtain ⟨node, hmem, hvalue⟩ := (hrep.contents key v).mp hknown
          have hkey : (HashParams.map mHasher factors).getKey node.mValue = key := by
            rw [hvalue]
            rfl
          have hfound := (lookup_iff hunique hfinds).mpr ⟨hperm.mem_iff.mpr hmem, hkey⟩
          rw [hlookup] at hfound
          cases hfound

/-- The entries of the next state determine the reference it stands for. -/
theorem Represents.next (hrep : Represents (HashParams.map mHasher factors) h ref)
    {next : Hash (K × V)} {call : HashCall K (K × V)} {answer : HashAnswer (K × V)}
    {ref' : K → Option V}
    (hstep : hashStep (HashParams.map mHasher factors) h call = some (next, answer))
    (hfiles : FilesHome (HashParams.map mHasher factors) h call)
    (hunique : (next.keys (HashParams.map mHasher factors)).Nodup)
    (hcontents : ∀ key v, ref' key = some v ↔ ∃ node ∈ next.entries, node.mValue = (key, v)) :
    Represents (HashParams.map mHasher factors) next ref' :=
  ⟨(step_spec hrep.invariant hstep).1, hrep.paced.step hrep.invariant hstep,
    (home_step hrep.invariant hrep.paced hrep.home hstep).mpr hfiles, hunique, hcontents⟩

theorem Represents.insert (hrep : Represents (HashParams.map mHasher factors) h ref)
    {key : K} {v : V} (habsent : ref key = none)
    (hharmless : Harmless (HashParams.map mHasher factors) h (.insert key v)) :
    ∃ next, HashMap.insert (HashParams.map mHasher factors) h key v = some next ∧
      Represents (HashParams.map mHasher factors) next (Function.update ref key (some v)) := by
  obtain ⟨middle, hadvance⟩ := advance_isSome (HashParams.map mHasher factors) hrep.invariant
    fun hidle hneed => (hharmless hidle hneed).1
  obtain ⟨next, hinsert, hperm⟩ :=
    insertEntry_of_advance hrep.invariant hadvance (key, v)
  have hstep : hashStep (HashParams.map mHasher factors) h (.insert (key, v)) =
      some (next, .done) := by
    simp [hashStep, hinsert]
  refine ⟨next, hinsert, hrep.next hstep (fun hidle hneed => (hharmless hidle hneed).2) ?_ ?_⟩
  · have hkeys : (next.keys (HashParams.map mHasher factors)).Perm
        (key :: h.keys (HashParams.map mHasher factors)) := hperm.map _
    refine hkeys.nodup_iff.mpr (List.nodup_cons.mpr ⟨fun hmem => ?_, hrep.unique⟩)
    obtain ⟨node, hnode, hkey⟩ := List.mem_map.mp hmem
    have hknown := (hrep.contents key node.mValue.2).mpr ⟨node, hnode, Prod.ext hkey rfl⟩
    rw [habsent] at hknown
    cases hknown
  · intro other w
    simp only [hperm.mem_iff, List.mem_cons, exists_eq_or_imp, Function.update_apply]
    by_cases hsame : other = key
    · subst hsame
      have hnone : ¬ ∃ node ∈ h.entries, node.mValue = (other, w) := fun hstored => by
        rw [← hrep.contents, habsent] at hstored
        cases hstored
      simp [hnone]
    · simp [hsame, Ne.symm hsame, hrep.contents]

/-- A removal of the node of a key takes the key out of the reference. -/
theorem Represents.erased (hrep : Represents (HashParams.map mHasher factors) h ref)
    {next : Hash (K × V)} {node : HashNode (K × V)}
    (hperm : h.entries.Perm (node :: next.entries)) (key : K) (v : V) :
    Function.update ref node.mValue.1 none key = some v ↔
      ∃ other ∈ next.entries, other.mValue = (key, v) := by
  have hkeys := (keys_perm_cons (HashParams.map mHasher factors) hperm).nodup_iff.mp hrep.unique
  have hnot : node.mValue.1 ∉ next.keys (HashParams.map mHasher factors) :=
    (List.nodup_cons.mp hkeys).1
  rw [Function.update_apply]
  split
  · rename_i hsame
    subst hsame
    refine iff_of_false (by simp) ?_
    rintro ⟨other, hother, hvalue⟩
    refine hnot (List.mem_map.mpr ⟨other, hother, ?_⟩)
    rw [hvalue]
    rfl
  · rename_i hother
    rw [hrep.contents]
    simp only [hperm.mem_iff, List.mem_cons, exists_eq_or_imp]
    refine or_iff_right fun hvalue => hother ?_
    rw [hvalue]

theorem Represents.erase (hrep : Represents (HashParams.map mHasher factors) h ref) {key : K}
    (hharmless : Harmless (HashParams.map mHasher factors) h (.erase key)) :
    ∃ next, h.erase (HashParams.map mHasher factors) key = some (next, (ref key).isSome) ∧
      Represents (HashParams.map mHasher factors) next (Function.update ref key none) := by
  obtain ⟨middle, hadvance⟩ := advance_isSome (HashParams.map mHasher factors) hrep.invariant
    fun hidle hneed => (hharmless hidle hneed).1
  have hmiddle := rehashed_of_advance hrep.invariant hadvance
  have hlookup := hrep.lookup hmiddle.contents (finds_of_looksHome hrep.invariant hrep.paced
    hrep.home hadvance fun hidle hneed => (hharmless hidle hneed).2)
  rcases erase_of_advance hrep.invariant hadvance key with
    ⟨hmiss, herase⟩ | ⟨node, next, hfound, herase, hperm⟩
  · rw [hmiss, Option.map_none] at hlookup
    have hstep : hashStep (HashParams.map mHasher factors) h (.erase key) =
        some (middle, .status false) := by
      simp [hashStep, herase]
    refine ⟨middle, by rw [herase, ← hlookup]; rfl, hrep.next hstep trivial
      (nodup_keys_of_perm hrep.unique hmiddle.contents) fun other v => ?_⟩
    have hself : Function.update ref key none = ref :=
      Function.update_eq_self_iff.mpr hlookup
    rw [hself, hrep.contents]
    simp only [hmiddle.contents.mem_iff]
  · rw [hfound, Option.map_some] at hlookup
    have hstep : hashStep (HashParams.map mHasher factors) h (.erase key) =
        some (next, .status true) := by
      simp [hashStep, herase]
    have hkey : node.mValue.1 = key := (lookup_eq_some hfound).1
    subst hkey
    refine ⟨next, by rw [herase, ← hlookup]; rfl,
      hrep.next hstep trivial ?_ fun other v => hrep.erased hperm other v⟩
    exact (List.nodup_cons.mp
      ((keys_perm_cons (HashParams.map mHasher factors) hperm).nodup_iff.mp hrep.unique)).2

/-- `get` and `isExist` look the key up and leave the represented map as it is. -/
theorem Represents.read (hrep : Represents (HashParams.map mHasher factors) h ref) {key : K}
    (hsize : h.isReHashing = false → h.isNeedReHash (HashParams.map mHasher factors) = true →
      h.mActive.mSize ≤ 2 ^ 30)
    (hlooks : h.isReHashing = false → h.isNeedReHash (HashParams.map mHasher factors) = true →
      LooksHome (HashParams.map mHasher factors) h key) :
    ∃ next node, h.find (HashParams.map mHasher factors) key = some (next, node) ∧
      h.isExist (HashParams.map mHasher factors) key = some (next, node.isSome) ∧
      node.map (fun node => node.mValue.2) = ref key ∧
      Represents (HashParams.map mHasher factors) next ref := by
  obtain ⟨middle, hadvance⟩ :=
    advance_isSome (HashParams.map mHasher factors) hrep.invariant hsize
  have hmiddle := rehashed_of_advance hrep.invariant hadvance
  have hlookup := hrep.lookup hmiddle.contents
    (finds_of_looksHome hrep.invariant hrep.paced hrep.home hadvance hlooks)
  have hfind := find_of_advance hrep.invariant hadvance key
  have hexist := isExist_of_advance hrep.invariant hadvance key
  generalize middle.lookup _ _ key = node at hlookup hfind hexist
  have hstep : hashStep (HashParams.map mHasher factors) h (.get key) =
      some (middle, .node node) := by
    rw [hashStep, hfind, Option.map_some]
  refine ⟨middle, node, hfind, hexist, hlookup,
    hrep.next hstep trivial (nodup_keys_of_perm hrep.unique hmiddle.contents) fun other v => ?_⟩
  rw [hrep.contents]
  simp only [hmiddle.contents.mem_iff]

/-- A harmless call that the reference admits answers as the reference does. -/
theorem Represents.step (hrep : Represents (HashParams.map mHasher factors) h ref)
    {call : MapCall K V} (hadmits : AdmitsInsert ref call)
    (hharmless : Harmless (HashParams.map mHasher factors) h call) :
    ∃ next, mapStep (HashParams.map mHasher factors) h call =
        some (next, (refMapStep ref call).2) ∧
      Represents (HashParams.map mHasher factors) next (refMapStep ref call).1 := by
  cases call with
  | insert key v =>
      obtain ⟨next, hinsert, hnext⟩ := hrep.insert hadmits hharmless
      exact ⟨next, by simp [mapStep, hinsert, refMapStep], hnext⟩
  | erase key =>
      obtain ⟨next, herase, hnext⟩ := hrep.erase hharmless
      exact ⟨next, by simp [mapStep, herase, refMapStep], hnext⟩
  | get key =>
      obtain ⟨next, node, hfind, -, hvalue, hnext⟩ := hrep.read
        (fun hidle hneed => (hharmless hidle hneed).1)
        (fun hidle hneed => (hharmless hidle hneed).2)
      refine ⟨next, ?_, hnext⟩
      rw [mapStep, refMapStep, HashMap.get, hfind, ← hvalue]
      cases node <;> rfl
  | isExist key =>
      obtain ⟨next, node, -, hexist, hvalue, hnext⟩ := hrep.read
        (fun hidle hneed => (hharmless hidle hneed).1)
        (fun hidle hneed => (hharmless hidle hneed).2)
      refine ⟨next, ?_, hnext⟩
      rw [mapStep, refMapStep, hexist, ← hvalue]
      cases node <;> rfl

/-- On runs whose calls are all harmless, and that insert absent keys only, the map
answers every call as the finite map does. -/
theorem map_agrees (mHasher : K → BitVec 64) (factors : LoadFactors)
    {calls : List (MapCall K V)}
    (hadmits : Machine.RefAdmits refMapStep AdmitsInsert (fun _ => none) calls)
    (hharmless : (mapMachine (HashParams.map mHasher factors)).Along
      (Harmless (HashParams.map mHasher factors)) new calls) :
    ∃ last, (mapMachine (HashParams.map mHasher factors)).run new calls =
      some (last, Machine.refRun refMapStep (fun _ => none) calls) := by
  obtain ⟨last, hrun, -⟩ := Machine.run_eq_refRun
    (fun _ _ _ hrep hadmits hharmless => hrep.step hadmits hharmless) represents_new hadmits
      hharmless
  exact ⟨last, hrun⟩

theorem map_agrees_expanding :
    ∃ last, (mapMachine HashParams.identity).run new
        [.insert 0 0, .insert 1 1, .insert 2 2, .insert 3 3, .insert 4 4, .get 3, .erase 4] =
      some (last, Machine.refRun refMapStep (fun _ => none)
        [.insert 0 0, .insert 1 1, .insert 2 2, .insert 3 3, .insert 4 4, .get 3, .erase 4]) :=
  map_agrees (BitVec.ofNat 64) LoadFactors.exact (by decide) (by decide)

/-- The keys `0` to `4` are stored in four buckets; `get(4)` starts the expansion, moves
`4` to bucket `4` of the new table, looks in bucket `0` and throws. -/
def staleGet : List (MapCall Nat Nat) :=
  [.insert 0 0, .insert 1 1, .insert 2 2, .insert 3 3, .insert 4 4, .get 4]

theorem not_map_agrees :
    ¬ ∀ calls : List (MapCall Nat Nat),
      Machine.RefAdmits refMapStep AdmitsInsert (fun _ => none) calls →
        ∃ last, (mapMachine HashParams.identity).run new calls =
          some (last, Machine.refRun refMapStep (fun _ => none) calls) := by
  intro hall
  obtain ⟨last, hrun⟩ := hall staleGet (by decide)
  have hanswers : ((mapMachine HashParams.identity).run new staleGet).map Prod.snd =
      some (Machine.refRun refMapStep (fun _ => none) staleGet) := by
    rw [hrun, Option.map_some]
  exact absurd hanswers (by decide)

end Simulation

end Hash

end RedisDB
