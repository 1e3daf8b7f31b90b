import RedisDB.SkipList.WellLinked

/-!
# The structure of a skip list

The live part of a skip list, its links, spans, back links and counters, is
determined by the keys, values and levels of its elements in order.  Two lists
with the same elements differ in the addresses of their nodes only, however
they came about.
-/

namespace RedisDB

open RedisDB.Library RedisDB.IntType

/-- A cell without its address. -/
def Cell.data {K V : Type} (cell : Cell K V) : K × V × Nat :=
  (cell.key, cell.value, cell.height)

namespace SkipList

variable {K V : Type} {s s' : SkipList K V} {cells cells' : List (Cell K V)} {level p q : Nat}

/-- The key, the value and the level of a node. -/
def elementAt (s : SkipList K V) (nd : Nat) : Option (K × V × Nat) :=
  (s.heap nd).map fun node => (node.mKey, node.mValue, node.mNexts.length - 1)

/-- The elements in the order of level `0`. -/
def elements (s : SkipList K V) : Option (List (K × V × Nat)) := do
  let nodes ← s.levelChain 0
  nodes.mapM s.elementAt

/-- The live parts of two lists are the same when the nodes are renamed: `nodes` are those
of the first list. -/
structure SameStructure (s s' : SkipList K V) (nodes : List Nat) (rename : Nat → Nat) :
    Prop where
  mHead : rename s.mHead = s'.mHead
  mTail : rename s.mTail = s'.mTail
  chain : s.levelChain 0 = some nodes
  chain' : s'.levelChain 0 = some (nodes.map rename)
  distinct : ((s.mHead :: (nodes ++ [s.mTail])).map rename).Nodup
  elements : ∀ nd ∈ nodes, ∃ e, s.elementAt nd = some e ∧ s'.elementAt (rename nd) = some e
  links : ∀ level, level ≤ s.mMaxLevel → ∀ nd,
    nd = s.mHead ∨ nd ∈ nodes ∧ s.reaches level nd = true →
      ∃ next span, s.nextAt nd level = some (some next) ∧
        s'.nextAt (rename nd) level = some (some (rename next)) ∧
        s.spanAt nd level = some span ∧ s'.spanAt (rename nd) level = some span
  back : ∀ nd ∈ nodes ++ [s.mTail], ∃ prev, s.backAt nd = some (some prev) ∧
    s'.backAt (rename nd) = some (some (rename prev))
  mMaxLevel : s'.mMaxLevel = s.mMaxLevel
  mLength : s'.mLength = s.mLength

/-! ## What the cells determine -/

/-- Sequences with the same data have at each position cells with the same data. -/
theorem getElem?_of_data (hdata : cells.map Cell.data = cells'.map Cell.data) {cell : Cell K V}
    (hcell : cells[p]? = some cell) :
    ∃ cell', cells'[p]? = some cell' ∧ cell'.data = cell.data := by
  have hget : (cells.map Cell.data)[p]? = some cell.data := by rw [List.getElem?_map, hcell]; rfl
  rw [hdata, List.getElem?_map, Option.map_eq_some_iff] at hget
  exact hget

theorem tall_of_data (hdata : cells.map Cell.data = cells'.map Cell.data)
    (htall : tall cells level p) : tall cells' level p := by
  cases p with
  | zero => exact htall.elim
  | succ p =>
      obtain ⟨cell, hcell, hheight⟩ := htall
      obtain ⟨cell', hcell', heq⟩ := getElem?_of_data hdata hcell
      have hsame : cell'.height = cell.height := congrArg (·.2.2) heq
      exact ⟨cell', hcell', hsame ▸ hheight⟩

theorem tall_congr (hdata : cells.map Cell.data = cells'.map Cell.data) :
    tall cells' level = tall cells level :=
  funext fun _ => propext ⟨tall_of_data hdata.symm, tall_of_data hdata⟩

theorem length_of_data (hdata : cells.map Cell.data = cells'.map Cell.data) :
    cells'.length = cells.length := by
  simpa using (congrArg List.length hdata).symm

theorem Topped.le_of_data {top top' : Nat} (htopped : Topped cells top)
    (htopped' : Topped cells' top') (hdata : cells.map Cell.data = cells'.map Cell.data) :
    top ≤ top' := by
  rcases htopped.attained with rfl | ⟨cell, hcell, hheight⟩
  · exact Nat.zero_le _
  · obtain ⟨p, hp⟩ := List.getElem?_of_mem hcell
    obtain ⟨cell', hcell', heq⟩ := getElem?_of_data hdata hp
    have hsame : cell'.height = cell.height := congrArg (·.2.2) heq
    have hbounded := htopped'.bounded cell' (List.mem_of_getElem? hcell')
    omega

theorem Shape.elementAt (hshape : s.Shape cells) {cell : Cell K V} (hcell : cell ∈ cells) :
    s.elementAt cell.addr = some (cell.key, cell.value, cell.height - 1) := by
  obtain ⟨node, hnode, hpayload⟩ := Option.map_eq_some_iff.mp (hshape.contents cell hcell)
  have hheight := hshape.heights cell hcell
  rw [heightAt, hnode, Option.map_some, Option.some.injEq] at hheight
  obtain ⟨hkey, hvalue⟩ := Prod.mk.inj hpayload
  rw [SkipList.elementAt, hnode, Option.map_some, hkey, hvalue, hheight]

section Determined

variable [LinearOrder K]

theorem elements_spec (hrep : s.Represents cells) :
    s.elements = some (cells.map fun cell => (cell.key, cell.value, cell.height - 1)) := by
  simp only [SkipList.elements, levelChain_zero hrep, Option.bind_eq_bind, Option.bind_some]
  exact mapM_map_eq_some fun cell hcell => hrep.shape.elementAt hcell

/-- The renaming takes each position of the one list to that of the other. -/
def Renames (s s' : SkipList K V) (cells cells' : List (Cell K V)) (rename : Nat → Nat) : Prop :=
  ∀ p, p ≤ cells.length + 1 → rename (s.place cells p) = s'.place cells' p

section Renames

variable {rename : Nat → Nat}

omit [LinearOrder K] in
theorem Renames.addr (hrename : Renames s s' cells cells' rename) {cell cell' : Cell K V}
    (hcell : cells[p]? = some cell) (hcell' : cells'[p]? = some cell') :
    rename cell.addr = cell'.addr := by
  have hp := (List.getElem?_eq_some_iff.mp hcell).1
  have hplace := hrename (p + 1) (by omega)
  rwa [place, place, addrAt_of_getElem? hcell, addrAt_of_getElem? hcell'] at hplace

omit [LinearOrder K] in
theorem Renames.spine (hrename : Renames s s' cells cells' rename)
    (hlength : cells'.length = cells.length) :
    (spine s.mHead s.mTail cells).map rename = spine s'.mHead s'.mTail cells' := by
  refine List.ext_getElem? fun p => ?_
  rw [List.getElem?_map]
  rcases Nat.lt_or_ge (cells.length + 1) p with hgt | hle
  · rw [List.getElem?_eq_none (by simp [RedisDB.spine]; omega),
      List.getElem?_eq_none (by simp [RedisDB.spine]; omega)]
    rfl
  · rw [spine_getElem? hle, spine_getElem? (by omega), Option.map_some]
    exact congrArg some (hrename p hle)

omit [LinearOrder K] in
theorem Renames.nodes (hrename : Renames s s' cells cells' rename)
    (hlength : cells'.length = cells.length) :
    (cells.map (·.addr)).map rename = cells'.map (·.addr) := by
  have hspine := (List.cons.inj (hrename.spine hlength)).2
  rw [List.map_append] at hspine
  exact (List.append_inj' hspine rfl).1

/-- The next marks of two lists with the same data are the same positions. -/
theorem Renames.links (hrename : Renames s s' cells cells' rename) (hrep : s.Represents cells)
    (hrep' : s'.Represents cells') (hdata : cells.map Cell.data = cells'.map Cell.data)
    (hlevel : level ≤ s.mMaxLevel) (hlevel' : level ≤ s'.mMaxLevel)
    (hp : p = 0 ∨ tall cells level p) :
    ∃ next span, s.nextAt (s.place cells p) level = some (some next) ∧
      s'.nextAt (rename (s.place cells p)) level = some (some (rename next)) ∧
      s.spanAt (s.place cells p) level = some span ∧
      s'.spanAt (rename (s.place cells p)) level = some span := by
  have hlength := length_of_data hdata
  obtain ⟨q, hq⟩ := hrep.linked level hlevel p hp
  obtain ⟨q', hq'⟩ := hrep'.linked level hlevel' p (tall_congr hdata ▸ hp)
  have hnext' := hq'.next
  rw [tall_congr hdata, hlength] at hnext'
  obtain rfl := hq.next.unique hnext'
  have hp' : p ≤ cells.length + 1 := Nat.le_succ_of_le hq.le_length
  refine ⟨_, _, hq.link, ?_, hq.span, ?_⟩
  · rw [hrename p hp', hq'.link, hrename q hq.next.le]
  · rw [hrename p hp', hq'.span, hlength]

/-- Two lists with the same data of their cells have the same structure. -/
theorem Renames.sameStructure (hrename : Renames s s' cells cells' rename)
    (hrep : s.Represents cells) (hrep' : s'.Represents cells')
    (hdata : cells.map Cell.data = cells'.map Cell.data) :
    s.SameStructure s' (cells.map (·.addr)) rename := by
  have hlength := length_of_data hdata
  have htop : s'.mMaxLevel = s.mMaxLevel :=
    le_antisymm (hrep'.topped.le_of_data hrep.topped hdata.symm)
      (hrep.topped.le_of_data hrep'.topped hdata)
  exact
    { mHead := hrename 0 (Nat.zero_le _)
      mTail := by
        have hlast := hrename (cells.length + 1) (Nat.le_refl _)
        rwa [place, place, addrAt_length, ← hlength, addrAt_length] at hlast
      chain := levelChain_zero hrep
      chain' := by rw [levelChain_zero hrep', hrename.nodes hlength]
      distinct := by
        have hnodup := hrep'.shape.distinct
        rwa [← hrename.spine hlength] at hnodup
      elements := by
        intro nd hnd
        obtain ⟨cell, hcell, rfl⟩ := List.mem_map.mp hnd
        obtain ⟨p, hp⟩ := List.getElem?_of_mem hcell
        obtain ⟨cell', hcell', heq⟩ := getElem?_of_data hdata hp
        have hkey : cell'.key = cell.key := congrArg (·.1) heq
        have hvalue : cell'.value = cell.value := congrArg (·.2.1) heq
        have hheight : cell'.height = cell.height := congrArg (·.2.2) heq
        refine ⟨_, hrep.shape.elementAt hcell, ?_⟩
        rw [hrename.addr hp hcell', hrep'.shape.elementAt (List.mem_of_getElem? hcell'), hkey,
          hvalue, hheight]
      links := by
        rintro level hlevel nd (rfl | ⟨hnd, hreaches⟩)
        · exact hrename.links hrep hrep' hdata hlevel (htop ▸ hlevel) (.inl rfl)
        · obtain ⟨cell, hcell, rfl⟩ := List.mem_map.mp hnd
          obtain ⟨p, hp⟩ := List.getElem?_of_mem hcell
          rw [hrep.shape.reaches_addr hcell] at hreaches
          have hplace : s.place cells (p + 1) = cell.addr := addrAt_of_getElem? hp
          rw [← hplace]
          exact hrename.links hrep hrep' hdata hlevel (htop ▸ hlevel)
            (.inr ⟨cell, hp, of_decide_eq_true hreaches⟩)
      back := by
        intro nd hnd
        obtain ⟨p, hp⟩ := List.getElem?_of_mem hnd
        obtain ⟨hle, rfl⟩ := getElem?_behind_head.mp hp
        refine ⟨_, hrep.back p hle, ?_⟩
        rw [hrename (p + 1) (by omega), hrename p (by omega), hrep'.back p (by omega)]
      mMaxLevel := htop
      mLength := by rw [hrep.length, hrep'.length, hlength] }

end Renames

/-- The renaming of the nodes of one list to those at the same positions of another. -/
def renamePlaces (s s' : SkipList K V) (cells cells' : List (Cell K V)) (nd : Nat) : Nat :=
  s'.place cells' ((spine s.mHead s.mTail cells).idxOf nd)

omit [LinearOrder K] in
theorem renames_renamePlaces (hshape : s.Shape cells) (s' : SkipList K V)
    (cells' : List (Cell K V)) :
    Renames s s' cells cells' (s.renamePlaces s' cells cells') := by
  intro p hp
  have hget : (spine s.mHead s.mTail cells)[p]? = some (s.place cells p) := spine_getElem? hp
  obtain ⟨hlt, hget⟩ := List.getElem?_eq_some_iff.mp hget
  rw [renamePlaces, ← hget, hshape.distinct.idxOf_getElem]

/-- The elements of a list determine the data of its cells, since no cell has height `0`. -/
theorem data_of_elements (hrep : s.Represents cells) (hrep' : s'.Represents cells')
    (helements : s.elements = s'.elements) : cells.map Cell.data = cells'.map Cell.data := by
  have hdata : ∀ {t : SkipList K V} {l : List (Cell K V)}, t.Represents l →
      l.map Cell.data = (l.map fun cell => (cell.key, cell.value, cell.height - 1)).map
        fun e => (e.1, e.2.1, e.2.2 + 1) := by
    intro t l ht
    rw [List.map_map]
    refine List.map_congr_left fun cell hcell => ?_
    have hpositive := ht.topped.positive cell hcell
    rw [Cell.data, Function.comp_apply, Nat.sub_add_cancel hpositive]
  rw [elements_spec hrep, elements_spec hrep', Option.some.injEq] at helements
  rw [hdata hrep, hdata hrep', helements]

theorem Represents.sameStructure (hrep : s.Represents cells) (hrep' : s'.Represents cells')
    (hdata : cells.map Cell.data = cells'.map Cell.data) :
    ∃ nodes rename, s.SameStructure s' nodes rename :=
  ⟨_, _, (renames_renamePlaces hrep.shape s' cells').sameStructure hrep hrep' hdata⟩

/-! ## Insertion and removal of one key -/

/-- A key that was absent is inserted and erased again: the nodes, and not only their
structure, are those of before. -/
theorem Represents.insert_erase (hrep : s.Represents cells) {k : K}
    (habsent : ∀ cell ∈ cells, cell.key ≠ k) (level : Nat) (v : V) :
    ∃ s' s'', s.insert unbounded level k v = some (s', true) ∧
      s'.erase unbounded k = some (s'', true) ∧ s.SameStructure s'' (cells.map (·.addr)) id := by
  have hcut := hrep.cut_le k
  have hrep₀ : s.Represents (cells.filter (fun cell => cell.key ≤ k) ++
      cells.filter fun cell => k < cell.key) := hcut ▸ hrep
  have hbelow : ∀ cell ∈ cells.filter (fun cell => cell.key ≤ k), cell.key < k := by
    intro cell hcell
    obtain ⟨hmem, hle⟩ := List.mem_filter.mp hcell
    exact lt_of_le_of_ne (of_decide_eq_true hle) (habsent cell hmem)
  obtain ⟨s', hinsert, hrep', hkeeps⟩ := insert_spec (unbounded_holdsUpTo _)
    (Nat.lt_succ_self _) hrep₀
    (fun cell hcell => le_of_lt (hbelow cell hcell))
    (fun cell hcell => of_decide_eq_true (List.mem_filter.mp hcell).2) level v
  obtain ⟨s'', herase, hrep'', hkeeps'⟩ := erase_spec (unbounded_holdsUpTo _)
    (Nat.le_refl _) hrep' rfl hbelow
  rw [← hcut] at hrep''
  have hboth := hkeeps.trans hkeeps'
  have hplaces : Renames s s'' cells cells id := fun p _ => by
    rw [place, place, hboth.mHead, hboth.mTail]
    rfl
  exact ⟨s', s'', hinsert, herase, hplaces.sameStructure hrep hrep'' rfl⟩

/-! ## Runs of insertions -/

/-- The call that inserts an element at its level. -/
def insertCall (e : Nat × K × V) : SkipCall K V :=
  .insert e.1 e.2.1 e.2.2

/-- Insertions add their elements to the data of the cells. -/
theorem run_inserts (k₀ : K) (v₀ : V) (inserts : List (Nat × K × V)) (hrep : s.Represents cells) :
    ∃ s' answers cells', (skipMachine unbounded k₀ v₀).run s (inserts.map insertCall) =
        some (s', answers) ∧
      s'.Represents cells' ∧
      (cells'.map Cell.data).Perm
        (cells.map Cell.data ++ inserts.map fun e => (e.2.1, e.2.2, e.1 + 1)) := by
  induction inserts generalizing s cells with
  | nil => exact ⟨s, [], cells, rfl, hrep, by simp⟩
  | cons e rest ih =>
      obtain ⟨level, k, v⟩ := e
      have hcut := hrep.cut_le k
      have hrep₀ : s.Represents (cells.filter (fun cell => cell.key ≤ k) ++
          cells.filter fun cell => k < cell.key) := hcut ▸ hrep
      obtain ⟨s₁, hinsert, hrep₁, -⟩ := insert_spec (unbounded_holdsUpTo _)
        (Nat.lt_succ_self _) hrep₀
        (fun cell hcell => of_decide_eq_true (List.mem_filter.mp hcell).2)
        (fun cell hcell => of_decide_eq_true (List.mem_filter.mp hcell).2) level v
      obtain ⟨s', answers, cells', hrun, hrep', hperm⟩ := ih hrep₁
      refine ⟨s', _, cells', Machine.run_cons_eq_some.mpr
        ⟨s₁, .status true, answers, ?_, hrun, rfl⟩, hrep', hperm.trans ?_⟩
      · exact congrArg (Option.map fun r => (r.1, SkipAnswer.status r.2)) hinsert
      · have hdata : cells.map Cell.data = (cells.filter fun cell => cell.key ≤ k).map Cell.data ++
            (cells.filter fun cell => k < cell.key).map Cell.data := by
          rw [← List.map_append, ← hcut]
        rw [hdata, List.map_append, List.map_cons, List.map_cons]
        exact (List.perm_middle.append_right _).trans List.perm_middle.symm

/-- Sorted cells with distinct keys are determined by their data as a set. -/
theorem data_of_perm (hrep : s.Represents cells) (hrep' : s'.Represents cells')
    (hperm : (cells.map Cell.data).Perm (cells'.map Cell.data))
    (hdistinct : (cells.map (·.key)).Nodup) :
    cells.map Cell.data = cells'.map Cell.data := by
  have hkeys : ((cells.map Cell.data).map (·.1)).Nodup := by rwa [List.map_map]
  have hsame : ∀ e e', e ∈ cells.map Cell.data → e' ∈ cells'.map Cell.data →
      e.1 ≤ e'.1 → e'.1 ≤ e.1 → e = e' := fun e e' he he' hle hge =>
    List.inj_on_of_nodup_map hkeys he (hperm.mem_iff.mpr he') (le_antisymm hle hge)
  exact List.Perm.eq_of_pairwise hsame (List.pairwise_map.mpr hrep.sorted)
    (List.pairwise_map.mpr hrep'.sorted) hperm

/-! ## Two runs -/

/-- The structure after a run does not depend on its history.  Two runs that leave the same
elements leave the same structure; an absent key inserted and erased leaves the very list of
before; and distinct keys inserted in any order at fixed levels give one structure. -/
theorem run_structure (k₀ k₁ : K) (v₀ v₁ : V) :
    (∀ calls calls' : List (SkipCall K V), ∃ s answers s' answers',
      RunsTo k₀ v₀ calls s answers ∧ RunsTo k₁ v₁ calls' s' answers' ∧
      (s.elements = s'.elements → ∃ nodes rename, s.SameStructure s' nodes rename)) ∧
    (∀ calls : List (SkipCall K V), ∃ s answers elements,
      RunsTo k₀ v₀ calls s answers ∧ s.elements = some elements ∧
      ∀ k, (∀ e ∈ elements, e.1 ≠ k) → ∀ level v, ∃ s' s'' nodes,
        s.insert unbounded level k v = some (s', true) ∧
          s'.erase unbounded k = some (s'', true) ∧ s.SameStructure s'' nodes id) ∧
    ∀ inserts inserts' : List (Nat × K × V),
      (inserts.map fun e => e.2.1).Nodup → inserts.Perm inserts' →
        ∃ s answers s' answers',
          RunsTo k₀ v₀ (inserts.map insertCall) s answers ∧
          RunsTo k₁ v₁ (inserts'.map insertCall) s' answers' ∧
          ∃ nodes rename, s.SameStructure s' nodes rename := by
  refine ⟨fun calls calls' => ?_, fun calls => ?_, fun inserts inserts' hdistinct hperm => ?_⟩
  · obtain ⟨s, hrun, cells, hrep, -⟩ := run_models k₀ v₀ calls
    obtain ⟨s', hrun', cells', hrep', -⟩ := run_models k₁ v₁ calls'
    exact ⟨s, _, s', _, hrun, hrun', fun helements =>
      hrep.sameStructure hrep' (data_of_elements hrep hrep' helements)⟩
  · obtain ⟨s, hrun, cells, hrep, -⟩ := run_models k₀ v₀ calls
    refine ⟨s, _, _, hrun, elements_spec hrep, fun k habsent level v => ?_⟩
    obtain ⟨s', s'', hinsert, herase, hsame⟩ := hrep.insert_erase (k := k)
      (fun cell hcell => habsent _ (List.mem_map_of_mem hcell)) level v
    exact ⟨s', s'', _, hinsert, herase, hsame⟩
  · obtain ⟨s, answers, cells, hrun, hrep, hdata⟩ :=
      run_inserts k₀ v₀ inserts (represents_new k₀ v₀)
    obtain ⟨s', answers', cells', hrun', hrep', hdata'⟩ :=
      run_inserts k₁ v₁ inserts' (represents_new k₁ v₁)
    rw [List.map_nil, List.nil_append] at hdata hdata'
    have hkeys : (cells.map (·.key)).Nodup := by
      have hmapped := hdata.map (·.1)
      rw [List.map_map, List.map_map] at hmapped
      exact hmapped.nodup_iff.mpr hdistinct
    exact ⟨s, answers, s', answers', runsTo_of_unbounded hrun, runsTo_of_unbounded hrun',
      hrep.sameStructure hrep'
      (data_of_perm hrep hrep' (hdata.trans ((hperm.map _).trans hdata'.symm)) hkeys)⟩

end Determined

end SkipList

end RedisDB
