import RedisDB.SkipList.Runs

/-!
# The destructor

`~SkipList` deletes the nodes it meets on level `0`.  Nodes that `erase` unlinked are
on no level any more, so nobody deletes them.
-/

namespace RedisDB

open RedisDB.Library RedisDB.IntType

namespace SkipList

variable {K V A : Type} {s s' s'' : SkipList K V} {nd level : Nat} {int : IntType}

/-- `delete nd`. -/
def freeNode (s : SkipList K V) (nd : Nat) : SkipList K V :=
  { s with heap := fun addr => if addr = nd then none else s.heap addr }

/-- The loop of the destructor, with the nodes it deletes; reading `mNexts` of a deleted
node is undefined. -/
def destroyLoop : Nat → Option Nat → SkipList K V → Option (SkipList K V × List Nat)
  | 0, _, _ => none
  | _ + 1, none, s => some (s, [])
  | fuel + 1, some it, s => do
      let next ← s.nextAt it 0
      let (s, freed) ← destroyLoop fuel next (s.freeNode it)
      some (s, it :: freed)

/-- The destructor.  It meets the elements, the two sentinels and the end. -/
def destroy (s : SkipList K V) : Option (SkipList K V × List Nat) :=
  destroyLoop (s.mLength.toNat + 3) (some s.mHead) s

/-! ## What the calls rewrite -/

/-- Nodes that exist were rewritten, but not where the tail links to. -/
structure Rewrites (s s' : SkipList K V) : Prop where
  mHead : s'.mHead = s.mHead
  mTail : s'.mTail = s.mTail
  newAddr : s'.newAddr = s.newAddr
  mLength : s'.mLength = s.mLength
  live : ∀ nd, (s'.heap nd).isSome = (s.heap nd).isSome
  tail : s'.nextAt s.mTail 0 = s.nextAt s.mTail 0

theorem Rewrites.refl (s : SkipList K V) : Rewrites s s :=
  ⟨rfl, rfl, rfl, rfl, fun _ => rfl, rfl⟩

theorem Rewrites.trans (hfirst : Rewrites s s') (hsecond : Rewrites s' s'') : Rewrites s s'' where
  mHead := hsecond.mHead.trans hfirst.mHead
  mTail := hsecond.mTail.trans hfirst.mTail
  newAddr := hsecond.newAddr.trans hfirst.newAddr
  mLength := hsecond.mLength.trans hfirst.mLength
  live nd := (hsecond.live nd).trans (hfirst.live nd)
  tail := by
    have hread := hsecond.tail
    rw [hfirst.mTail] at hread
    exact hread.trans hfirst.tail

theorem Rewrites.put {node node' : SkipListNode K V} (hnode : s.heap nd = some node)
    (hnexts : nd = s.mTail → node'.mNexts = node.mNexts) : Rewrites s (s.put nd node') := by
  refine ⟨rfl, rfl, rfl, rfl, fun addr => ?_, ?_⟩
  · by_cases haddr : addr = nd
    · simp [SkipList.put, haddr, hnode]
    · simp [SkipList.put, haddr]
  · by_cases htail : nd = s.mTail
    · subst htail
      simp [SkipList.put, nextAt, hnode, hnexts rfl]
    · simp [SkipList.put, nextAt, Ne.symm htail]

theorem setNext_rewrites {next : Option Nat} (hne : nd ≠ s.mTail)
    (hset : s.setNext nd level next = some s') : Rewrites s s' := by
  obtain ⟨node, hnode, hset⟩ := Option.bind_eq_some_iff.mp hset
  obtain ⟨nexts, -, hset⟩ := Option.bind_eq_some_iff.mp hset
  cases hset
  exact Rewrites.put hnode fun htail => absurd htail hne

theorem setSpan_rewrites {span : Int} (hset : s.setSpan nd level span = some s') :
    Rewrites s s' := by
  obtain ⟨node, hnode, hset⟩ := Option.bind_eq_some_iff.mp hset
  obtain ⟨spans, -, hset⟩ := Option.bind_eq_some_iff.mp hset
  cases hset
  exact Rewrites.put hnode fun _ => rfl

theorem setBack_rewrites {back : Option Nat} (hset : s.setBack nd back = some s') :
    Rewrites s s' := by
  obtain ⟨node, hnode, hset⟩ := Option.bind_eq_some_iff.mp hset
  cases hset
  exact Rewrites.put hnode fun _ => rfl

theorem setLevelNum_rewrites {l : Nat} (hne : nd ≠ s.mTail)
    (hset : s.setLevelNum nd l = some s') : Rewrites s s' := by
  obtain ⟨node, hnode, hset⟩ := Option.bind_eq_some_iff.mp hset
  cases hset
  exact Rewrites.put hnode fun htail => absurd htail hne

/-! ## Predecessors are not the tail -/

theorem not_mem_vectorSet {prevs prevs' : List (Option Nat)} {i : Nat} {x tail : Option Nat}
    (hset : vectorSet prevs i x = some prevs') (hx : x ≠ tail) (hprevs : tail ∉ prevs) :
    tail ∉ prevs' := by
  obtain ⟨-, heq⟩ := Option.ite_none_right_eq_some.mp hset
  cases heq
  intro hmem
  rcases List.mem_or_eq_of_mem_set hmem with hold | rfl
  · exact hprevs hold
  · exact hx rfl

/-- A search visits no tail: what its notes keep away from other nodes holds at the end. -/
theorem descend_ne_tail {stop : K → Bool} {down right : Nat → Nat → A → Option A}
    {Good : A → Prop}
    (hdown : ∀ level nd acc acc', nd ≠ s.mTail → Good acc → down level nd acc = some acc' →
      Good acc')
    (hright : ∀ level nd acc acc', Good acc → right level nd acc = some acc' → Good acc')
    (fuel : Nat) {level nd' : Nat} {acc acc' : A} (hne : nd ≠ s.mTail) (hgood : Good acc)
    (hdescend : s.descend stop down right fuel nd level acc = some (nd', acc')) :
    nd' ≠ s.mTail ∧ Good acc' := by
  induction fuel generalizing nd level acc with
  | zero =>
      cases level with
      | zero => cases hdescend; exact ⟨hne, hgood⟩
      | succ level => cases hdescend
  | succ fuel ih =>
      cases level with
      | zero => cases hdescend; exact ⟨hne, hgood⟩
      | succ level =>
          obtain ⟨next, -, hdescend⟩ := Option.bind_eq_some_iff.mp hdescend
          obtain ⟨stops, hstops, hdescend⟩ := Option.bind_eq_some_iff.mp hdescend
          cases stops with
          | true =>
              obtain ⟨noted, hnoted, hdescend⟩ := Option.bind_eq_some_iff.mp hdescend
              exact ih hne (hdown _ _ _ _ hne hgood hnoted) hdescend
          | false =>
              obtain ⟨noted, hnoted, hdescend⟩ := Option.bind_eq_some_iff.mp hdescend
              obtain ⟨nd₁, hnext, hdescend⟩ := Option.bind_eq_some_iff.mp hdescend
              have hne₁ : nd₁ ≠ s.mTail := by
                rintro rfl
                rw [hnext, stopsAt, if_pos rfl] at hstops
                cases hstops
              exact ih hne₁ (hright _ _ _ _ hgood hnoted) hdescend

theorem noteRankedPrev_ne_tail {acc acc' : List (Option Nat) × List Int} {tail : Nat}
    (hne : nd ≠ tail) (hprevs : some tail ∉ acc.1)
    (hnote : noteRankedPrev level nd acc = some acc') : some tail ∉ acc'.1 := by
  obtain ⟨prevs, hset, hnote⟩ := Option.bind_eq_some_iff.mp hnote
  have hkept := not_mem_vectorSet hset (fun heq => hne (Option.some.inj heq)) hprevs
  cases level with
  | zero =>
      cases hnote
      exact hkept
  | succ below =>
      obtain ⟨rank, -, hnote⟩ := Option.bind_eq_some_iff.mp hnote
      obtain ⟨ranks, -, hnote⟩ := Option.bind_eq_some_iff.mp hnote
      cases hnote
      exact hkept

theorem addRank_prevs {acc acc' : List (Option Nat) × List Int}
    (hnote : s.addRank int level nd acc = some acc') : acc'.1 = acc.1 := by
  obtain ⟨rank, -, hnote⟩ := Option.bind_eq_some_iff.mp hnote
  obtain ⟨span, -, hnote⟩ := Option.bind_eq_some_iff.mp hnote
  obtain ⟨sum, -, hnote⟩ := Option.bind_eq_some_iff.mp hnote
  obtain ⟨ranks, -, hnote⟩ := Option.bind_eq_some_iff.mp hnote
  cases hnote
  rfl

/-- The predecessors of an insertion. -/
theorem insert_search_ne_tail [LinearOrder K] {k : K} {top : Nat} {ranks : List Int}
    {prevs : List (Option Nat)} {nd : Nat} (hhead : s.mHead ≠ s.mTail)
    (hsearch : s.search (s.insertSearch int top k) = some (nd, prevs, ranks)) :
    some s.mTail ∉ prevs := by
  have hdown : ∀ level nd (acc acc' : List (Option Nat) × List Int), nd ≠ s.mTail →
      some s.mTail ∉ acc.1 → noteRankedPrev level nd acc = some acc' → some s.mTail ∉ acc'.1 :=
    fun _ _ _ _ => noteRankedPrev_ne_tail
  have hright : ∀ level nd (acc acc' : List (Option Nat) × List Int), some s.mTail ∉ acc.1 →
      s.addRank int level nd acc = some acc' → some s.mTail ∉ acc'.1 :=
    fun _ _ _ _ hprevs hnote => addRank_prevs hnote ▸ hprevs
  exact (descend_ne_tail hdown hright _ hhead (by simp [insertSearch]) hsearch).2

/-- The predecessors of a removal. -/
theorem erase_search_ne_tail [LinearOrder K] {k : K} {prevs : List (Option Nat)} {nd : Nat}
    (hhead : s.mHead ≠ s.mTail) (hsearch : s.search (s.eraseSearch k) = some (nd, prevs)) :
    some s.mTail ∉ prevs := by
  have hdown : ∀ level nd (acc acc' : List (Option Nat)), nd ≠ s.mTail →
      some s.mTail ∉ acc → notePrev level nd acc = some acc' → some s.mTail ∉ acc' :=
    fun _ _ _ _ hne hprevs hnote =>
      not_mem_vectorSet hnote (fun heq => hne (Option.some.inj heq)) hprevs
  have hright : ∀ level nd (acc acc' : List (Option Nat)), some s.mTail ∉ acc →
      noNote level nd acc = some acc' → some s.mTail ∉ acc' :=
    fun _ _ _ _ hprevs hnote => Option.some.inj hnote ▸ hprevs
  exact (descend_ne_tail hdown hright _ hhead (by simp [eraseSearch]) hsearch).2

/-! ## What a call rewrites -/

section Calls

variable {prevs prevs' : List (Option Nat)}

theorem raiseLoop_rewrites {count : Nat} (hhead : s.mHead ≠ s.mTail)
    (hprevs : some s.mTail ∉ prevs) (hraise : s.raiseLoop prevs count = some (s', prevs')) :
    Rewrites s s' ∧ some s.mTail ∉ prevs' := by
  induction count generalizing s prevs with
  | zero =>
      obtain ⟨rfl, rfl⟩ := Prod.mk.inj (Option.some.inj hraise)
      exact ⟨Rewrites.refl _, hprevs⟩
  | succ count ih =>
      obtain ⟨prevs₁, hset, hraise⟩ := Option.bind_eq_some_iff.mp hraise
      obtain ⟨s₁, hnext, hraise⟩ := Option.bind_eq_some_iff.mp hraise
      obtain ⟨s₂, hspan, hraise⟩ := Option.bind_eq_some_iff.mp hraise
      have hfirst := (setNext_rewrites hhead hnext).trans (setSpan_rewrites hspan)
      have hkept : some s.mTail ∉ prevs₁ :=
        not_mem_vectorSet hset (fun heq => hhead (Option.some.inj heq)) hprevs
      rw [← hfirst.mTail] at hkept
      obtain ⟨hrest, hlast⟩ :=
        ih (by rw [hfirst.mHead, hfirst.mTail]; exact hhead) hkept hraise
      rw [hfirst.mTail] at hlast
      exact ⟨hfirst.trans hrest, hlast⟩

theorem raise_rewrites (hhead : s.mHead ≠ s.mTail) (hprevs : some s.mTail ∉ prevs)
    (hraise : s.raise level prevs = some (s', prevs')) :
    Rewrites s s' ∧ some s.mTail ∉ prevs' := by
  rw [raise] at hraise
  split at hraise
  · obtain ⟨s₁, hlevels, hraise⟩ := Option.bind_eq_some_iff.mp hraise
    have hfirst := setLevelNum_rewrites hhead hlevels
    rw [← hfirst.mTail] at hprevs
    obtain ⟨hrest, hlast⟩ :=
      raiseLoop_rewrites (by rw [hfirst.mHead, hfirst.mTail]; exact hhead) hprevs hraise
    rw [hfirst.mTail] at hlast
    exact ⟨hfirst.trans hrest, hlast⟩
  · obtain ⟨rfl, rfl⟩ := Prod.mk.inj (Option.some.inj hraise)
    exact ⟨Rewrites.refl _, hprevs⟩

theorem linkLevel_rewrites {newNode i : Nat} {ranks : List Int} (hnew : newNode ≠ s.mTail)
    (hprevs : some s.mTail ∉ prevs)
    (hlink : s.linkLevel int newNode level prevs ranks i = some s') : Rewrites s s' := by
  obtain ⟨entry, hentry, hlink⟩ := Option.bind_eq_some_iff.mp hlink
  obtain ⟨prev, hsome, hlink⟩ := Option.bind_eq_some_iff.mp hlink
  obtain ⟨next, -, hlink⟩ := Option.bind_eq_some_iff.mp hlink
  obtain ⟨span, -, hlink⟩ := Option.bind_eq_some_iff.mp hlink
  have hprev : prev ≠ s.mTail := by
    rintro rfl
    exact hprevs (hsome ▸ List.mem_of_getElem? hentry)
  split at hlink
  · obtain ⟨first, -, hlink⟩ := Option.bind_eq_some_iff.mp hlink
    obtain ⟨rank, -, hlink⟩ := Option.bind_eq_some_iff.mp hlink
    obtain ⟨passed, -, hlink⟩ := Option.bind_eq_some_iff.mp hlink
    obtain ⟨rest, -, hlink⟩ := Option.bind_eq_some_iff.mp hlink
    obtain ⟨s₁, hset, hlink⟩ := Option.bind_eq_some_iff.mp hlink
    obtain ⟨more, -, hlink⟩ := Option.bind_eq_some_iff.mp hlink
    obtain ⟨s₂, hset', hlink⟩ := Option.bind_eq_some_iff.mp hlink
    obtain ⟨s₃, hnext, hlink⟩ := Option.bind_eq_some_iff.mp hlink
    have hspans := (setSpan_rewrites hset).trans (setSpan_rewrites hset')
    have hthird := hspans.trans (setNext_rewrites (by rw [hspans.mTail]; exact hprev) hnext)
    exact hthird.trans (setNext_rewrites (by rw [hthird.mTail]; exact hnew) hlink)
  · obtain ⟨more, -, hlink⟩ := Option.bind_eq_some_iff.mp hlink
    exact setSpan_rewrites hlink

theorem linkLoop_rewrites {newNode count : Nat} {ranks : List Int} (hnew : newNode ≠ s.mTail)
    (hprevs : some s.mTail ∉ prevs)
    (hlink : s.linkLoop int newNode level prevs ranks count = some s') : Rewrites s s' := by
  induction count generalizing s' with
  | zero =>
      obtain rfl := Option.some.inj hlink
      exact Rewrites.refl _
  | succ i ih =>
      obtain ⟨s₁, hloop, hlink⟩ := Option.bind_eq_some_iff.mp hlink
      have hfirst := ih hloop
      rw [← hfirst.mTail] at hnew hprevs
      exact hfirst.trans (linkLevel_rewrites hnew hprevs hlink)

theorem linkBack_rewrites {newNode : Nat} (hlink : s.linkBack newNode prevs = some s') :
    Rewrites s s' := by
  obtain ⟨prev, -, hlink⟩ := Option.bind_eq_some_iff.mp hlink
  obtain ⟨s₁, hback, hlink⟩ := Option.bind_eq_some_iff.mp hlink
  obtain ⟨entry, -, hlink⟩ := Option.bind_eq_some_iff.mp hlink
  obtain ⟨next, -, hlink⟩ := Option.bind_eq_some_iff.mp hlink
  exact (setBack_rewrites hback).trans (setBack_rewrites hlink)

theorem unlinkLevel_rewrites {i : Nat} (hprevs : some s.mTail ∉ prevs)
    (hunlink : s.unlinkLevel int nd prevs i = some s') : Rewrites s s' := by
  obtain ⟨entry, hentry, hunlink⟩ := Option.bind_eq_some_iff.mp hunlink
  obtain ⟨prev, hsome, hunlink⟩ := Option.bind_eq_some_iff.mp hunlink
  obtain ⟨next, -, hunlink⟩ := Option.bind_eq_some_iff.mp hunlink
  obtain ⟨span, -, hunlink⟩ := Option.bind_eq_some_iff.mp hunlink
  have hprev : prev ≠ s.mTail := by
    rintro rfl
    exact hprevs (hsome ▸ List.mem_of_getElem? hentry)
  split at hunlink
  · obtain ⟨own, -, hunlink⟩ := Option.bind_eq_some_iff.mp hunlink
    obtain ⟨added, -, hunlink⟩ := Option.bind_eq_some_iff.mp hunlink
    obtain ⟨sum, -, hunlink⟩ := Option.bind_eq_some_iff.mp hunlink
    obtain ⟨s₁, hset, hunlink⟩ := Option.bind_eq_some_iff.mp hunlink
    obtain ⟨entry', -, hunlink⟩ := Option.bind_eq_some_iff.mp hunlink
    have hfirst := setSpan_rewrites hset
    exact hfirst.trans (setNext_rewrites (by rw [hfirst.mTail]; exact hprev) hunlink)
  · obtain ⟨less, -, hunlink⟩ := Option.bind_eq_some_iff.mp hunlink
    exact setSpan_rewrites hunlink

theorem unlinkLoop_rewrites {count : Nat} (hprevs : some s.mTail ∉ prevs)
    (hunlink : s.unlinkLoop int nd prevs count = some s') : Rewrites s s' := by
  induction count generalizing s' with
  | zero =>
      obtain rfl := Option.some.inj hunlink
      exact Rewrites.refl _
  | succ i ih =>
      obtain ⟨s₁, hloop, hunlink⟩ := Option.bind_eq_some_iff.mp hunlink
      have hfirst := ih hloop
      rw [← hfirst.mTail] at hprevs
      exact hfirst.trans (unlinkLevel_rewrites hprevs hunlink)

theorem unlinkBack_rewrites (hunlink : s.unlinkBack nd prevs = some s') : Rewrites s s' := by
  obtain ⟨entry, -, hunlink⟩ := Option.bind_eq_some_iff.mp hunlink
  obtain ⟨next, -, hunlink⟩ := Option.bind_eq_some_iff.mp hunlink
  obtain ⟨prev, -, hunlink⟩ := Option.bind_eq_some_iff.mp hunlink
  exact setBack_rewrites hunlink

end Calls

/-! ## Every node is accounted for -/

/-- Each address handed out holds a node, the tail is the last one, and so many nodes are
neither elements nor sentinels. -/
structure Owned (s : SkipList K V) (unlisted : Int) : Prop where
  sentinels : s.mHead ≠ s.mTail
  tail_lt : s.mTail < s.newAddr
  live : ∀ nd, (s.heap nd).isSome = decide (nd < s.newAddr)
  tail_end : s.nextAt s.mTail 0 = some none
  count : (s.newAddr : Int) = s.mLength + 2 + unlisted

theorem owned_new (k : K) (v : V) : Owned (new k v : SkipList K V) 0 where
  sentinels := Nat.zero_ne_one
  tail_lt := Nat.one_lt_two
  live := by
    intro nd
    match nd with
    | 0 => rfl
    | 1 => rfl
    | nd + 2 => simp [new]
  tail_end := rfl
  count := rfl

variable {unlisted : Int}

theorem Owned.rewrites (howned : s.Owned unlisted) (hrewrites : Rewrites s s') :
    s'.Owned unlisted where
  sentinels := by rw [hrewrites.mHead, hrewrites.mTail]; exact howned.sentinels
  tail_lt := by rw [hrewrites.mTail, hrewrites.newAddr]; exact howned.tail_lt
  live nd := by rw [hrewrites.live, hrewrites.newAddr, howned.live]
  tail_end := by rw [hrewrites.mTail, hrewrites.tail, howned.tail_end]
  count := by rw [hrewrites.newAddr, hrewrites.mLength, howned.count]

/-- A node just allocated is in no list yet. -/
theorem Owned.alloc (howned : s.Owned unlisted) (node : SkipListNode K V) :
    (s.alloc node).1.Owned (unlisted + 1) where
  sentinels := howned.sentinels
  tail_lt := Nat.lt_succ_of_lt howned.tail_lt
  live nd := by
    by_cases hnd : nd = s.newAddr
    · subst hnd
      simp [SkipList.alloc, SkipList.put]
    · rw [heap_alloc_of_ne hnd, howned.live]
      have hnext : (s.alloc node).1.newAddr = s.newAddr + 1 := rfl
      rw [hnext, decide_eq_decide]
      omega
  tail_end := (nextAt_alloc_of_ne howned.tail_lt.ne).trans howned.tail_end
  count := by
    have hcount := howned.count
    have hnext : (s.alloc node).1.newAddr = s.newAddr + 1 := rfl
    have hlength : (s.alloc node).1.mLength = s.mLength := rfl
    rw [hnext, hlength]
    omega

/-- Listing or unlisting nodes is a matter of the counters. -/
theorem Owned.counters (howned : s.Owned unlisted) (top : Nat) (change : Int) :
    Owned { s with mMaxLevel := top, mLength := s.mLength + change } (unlisted - change) where
  sentinels := howned.sentinels
  tail_lt := howned.tail_lt
  live := howned.live
  tail_end := howned.tail_end
  count := by
    have hcount := howned.count
    change (s.newAddr : Int) = s.mLength + change + 2 + (unlisted - change)
    omega

section Steps

variable [LinearOrder K] {k : K} {v : V} {done : Bool}

theorem insert_owned (howned : s.Owned unlisted)
    (hinsert : s.insert int level k v = some (s', done)) : s'.Owned unlisted := by
  obtain ⟨⟨nd, prevs, ranks⟩, hsearch, hinsert⟩ := Option.bind_eq_some_iff.mp hinsert
  obtain ⟨⟨s₂, prevs₂⟩, hraise, hinsert⟩ := Option.bind_eq_some_iff.mp hinsert
  obtain ⟨s₃, hloop, hinsert⟩ := Option.bind_eq_some_iff.mp hinsert
  obtain ⟨s₄, hback, hinsert⟩ := Option.bind_eq_some_iff.mp hinsert
  obtain ⟨length, hlength, hinsert⟩ := Option.bind_eq_some_iff.mp hinsert
  obtain ⟨-, rfl⟩ := eval_eq_some.mp hlength
  have halloc := howned.alloc (SkipListNode.newLevel k v (level + 1))
  have hprevs := insert_search_ne_tail halloc.sentinels hsearch
  obtain ⟨hfirst, hprevs₂⟩ := raise_rewrites halloc.sentinels hprevs hraise
  rw [← hfirst.mTail] at hprevs₂
  have hnew : s.newAddr ≠ s₂.mTail := by
    rw [hfirst.mTail]
    exact howned.tail_lt.ne'
  have hlinked := (linkLoop_rewrites hnew hprevs₂ hloop).trans (linkBack_rewrites hback)
  have hlast := ((halloc.rewrites hfirst).rewrites hlinked).counters (max s.mMaxLevel level) 1
  rw [Int.add_sub_cancel] at hlast
  obtain ⟨rfl, -⟩ := Prod.mk.inj (Option.some.inj hinsert)
  exact hlast

theorem erase_owned (howned : s.Owned unlisted) (herase : s.erase int k = some (s', done)) :
    s'.Owned (unlisted + if done then 1 else 0) := by
  obtain ⟨⟨nd, prevs⟩, hsearch, herase⟩ := Option.bind_eq_some_iff.mp herase
  obtain ⟨next, -, herase⟩ := Option.bind_eq_some_iff.mp herase
  have hprevs := erase_search_ne_tail howned.sentinels hsearch
  split at herase
  · obtain ⟨rfl, rfl⟩ := Prod.mk.inj (Option.some.inj herase)
    simpa using howned
  · obtain ⟨first, -, herase⟩ := Option.bind_eq_some_iff.mp herase
    obtain ⟨key, -, herase⟩ := Option.bind_eq_some_iff.mp herase
    split at herase
    · obtain ⟨rfl, rfl⟩ := Prod.mk.inj (Option.some.inj herase)
      simpa using howned
    · obtain ⟨s₁, hloop, herase⟩ := Option.bind_eq_some_iff.mp herase
      obtain ⟨s₂, hback, herase⟩ := Option.bind_eq_some_iff.mp herase
      obtain ⟨maxLevel, -, herase⟩ := Option.bind_eq_some_iff.mp herase
      obtain ⟨length, hlength, herase⟩ := Option.bind_eq_some_iff.mp herase
      obtain ⟨-, rfl⟩ := eval_eq_some.mp hlength
      have hunlinked := (unlinkLoop_rewrites hprevs hloop).trans (unlinkBack_rewrites hback)
      have hlast := (howned.rewrites hunlinked).counters maxLevel (-1)
      obtain ⟨rfl, rfl⟩ := Prod.mk.inj (Option.some.inj herase)
      rw [Int.sub_neg, ← Int.sub_eq_add_neg] at hlast
      exact hlast

/-- The call is an `erase` that answers `true`. -/
def erases : SkipCall K V → SkipAnswer → Bool
  | .erase _, .status done => done
  | _, _ => false

/-- How many calls of a run erase an element. -/
def erasures (calls : List (SkipCall K V)) (answers : List SkipAnswer) : Nat :=
  ((calls.zip answers).filter fun pair => erases pair.1 pair.2).length

theorem step_owned {call : SkipCall K V} {answer : SkipAnswer} (howned : s.Owned unlisted)
    (hstep : skipStep int s call = some (s', answer)) :
    s'.Owned (unlisted + if erases call answer then 1 else 0) := by
  cases call with
  | insert level k v =>
      obtain ⟨⟨next, done⟩, hinsert, heq⟩ := Option.map_eq_some_iff.mp hstep
      cases heq
      simpa [erases] using insert_owned howned hinsert
  | erase k =>
      obtain ⟨⟨next, done⟩, herase, heq⟩ := Option.map_eq_some_iff.mp hstep
      cases heq
      exact erase_owned howned herase
  | getLength =>
      cases hstep
      simpa [erases] using howned
  | getRank k =>
      obtain ⟨rank, -, heq⟩ := Option.map_eq_some_iff.mp hstep
      cases heq
      simpa [erases] using howned

theorem run_owned {k₀ : K} {v₀ : V} {calls : List (SkipCall K V)} {answers : List SkipAnswer}
    (howned : s.Owned unlisted)
    (hrun : (skipMachine int k₀ v₀).run s calls = some (s', answers)) :
    s'.Owned (unlisted + erasures calls answers) := by
  induction calls generalizing s unlisted answers with
  | nil =>
      cases hrun
      simpa [erasures] using howned
  | cons call rest ih =>
      obtain ⟨next, answer, tail, hstep, htail, rfl⟩ := Machine.run_cons_eq_some.mp hrun
      have hlast := ih (step_owned howned hstep) htail
      have hcount : unlisted + (if erases call answer then 1 else 0) + (erasures rest tail : Int) =
          unlisted + (erasures (call :: rest) (answer :: tail) : Int) := by
        rw [erasures, erasures, List.zip_cons_cons, List.filter_cons]
        cases erases call answer with
        | true => simp [Int.add_assoc, Int.add_comm]
        | false => simp
      rwa [hcount] at hlast

end Steps

/-! ## The destructor deletes the listed nodes -/

/-- The list with some nodes deleted. -/
def without (s : SkipList K V) (freed : List Nat) : SkipList K V :=
  { s with heap := fun nd => if nd ∈ freed then none else s.heap nd }

theorem freeNode_without (freed : List Nat) :
    (s.freeNode nd).without freed = s.without (nd :: freed) := by
  simp only [without, freeNode, List.mem_cons, mk.injEq, and_true]
  funext addr
  by_cases haddr : addr = nd
  · simp [haddr]
  · simp [haddr]

/-- The destructor's loop deletes the nodes that a walk to the tail passes, and the tail. -/
theorem destroyLoop_of_walk {fuel : Nat} {it : Option Nat} {nodes : List Nat}
    {left : SkipList K V} (hwalk : s.walk 0 fuel it = some nodes)
    (htail : s.nextAt s.mTail 0 = some none) (hnodup : (nodes ++ [s.mTail]).Nodup)
    (hleft : ∀ nd ∈ nodes ++ [s.mTail], left.heap nd = s.heap nd) :
    destroyLoop (fuel + 1) it left =
      some (left.without (nodes ++ [s.mTail]), nodes ++ [s.mTail]) := by
  induction fuel generalizing it nodes left with
  | zero => cases hwalk
  | succ fuel ih =>
      rw [walk] at hwalk
      split at hwalk
      · rename_i hend
        obtain rfl := Option.some.inj hwalk
        have hnext : left.nextAt s.mTail 0 = some none := by
          rw [nextAt, hleft s.mTail (by simp)]
          exact htail
        rw [hend, destroyLoop, hnext]
        simp [destroyLoop, without, freeNode]
      · obtain ⟨nd, hit, hwalk⟩ := Option.bind_eq_some_iff.mp hwalk
        obtain ⟨next, hnext, hwalk⟩ := Option.bind_eq_some_iff.mp hwalk
        obtain ⟨rest, hrest, hwalk⟩ := Option.bind_eq_some_iff.mp hwalk
        obtain rfl := Option.some.inj hwalk
        rw [List.cons_append] at hnodup hleft ⊢
        obtain ⟨hfirst, hnodup⟩ := List.nodup_cons.mp hnodup
        have hread : left.nextAt nd 0 = some next := by
          rw [nextAt, hleft nd List.mem_cons_self]
          exact hnext
        have hrestLeft : ∀ other ∈ rest ++ [s.mTail],
            (left.freeNode nd).heap other = s.heap other := by
          intro other hother
          have hne : other ≠ nd := fun heq => hfirst (heq ▸ hother)
          exact (if_neg hne).trans (hleft other (List.mem_cons_of_mem _ hother))
        rw [hit, destroyLoop, hread, Option.bind_eq_bind, Option.bind_some,
          ih hrest hnodup hrestLeft, freeNode_without]
        rfl

/-- The destructor deletes the head as well. -/
theorem destroy_of_chain {nodes : List Nat} (hchain : s.levelChain 0 = some nodes)
    (htail : s.nextAt s.mTail 0 = some none) (hnodup : (s.mHead :: (nodes ++ [s.mTail])).Nodup) :
    s.destroy = some (s.without (s.mHead :: (nodes ++ [s.mTail])),
      s.mHead :: (nodes ++ [s.mTail])) := by
  obtain ⟨first, hfirst, hwalk⟩ := Option.bind_eq_some_iff.mp hchain
  obtain ⟨hhead, hnodup⟩ := List.nodup_cons.mp hnodup
  have hleft : ∀ nd ∈ nodes ++ [s.mTail], (s.freeNode s.mHead).heap nd = s.heap nd := by
    intro nd hnd
    have hne : nd ≠ s.mHead := fun heq => hhead (heq ▸ hnd)
    exact if_neg hne
  rw [destroy, destroyLoop, hfirst, Option.bind_eq_bind, Option.bind_some,
    destroyLoop_of_walk hwalk htail hnodup hleft, freeNode_without]
  rfl

/-- The addresses that hold a node. -/
def remaining (s : SkipList K V) : List Nat :=
  (List.range s.newAddr).filter fun nd => (s.heap nd).isSome

/-- Taking different numbers out of a range leaves the others. -/
theorem length_filter_not_mem {freed : List Nat} {n : Nat} (hnodup : freed.Nodup)
    (hbelow : ∀ nd ∈ freed, nd < n) :
    ((List.range n).filter fun nd => !decide (nd ∈ freed)).length + freed.length = n := by
  have hperm : ((List.range n).filter fun nd => decide (nd ∈ freed)).Perm freed := by
    rw [List.perm_ext_iff_of_nodup (List.nodup_range.filter _) hnodup]
    intro nd
    rw [List.mem_filter, List.mem_range, decide_eq_true_eq]
    exact ⟨And.right, fun hnd => ⟨hbelow nd hnd, hnd⟩⟩
  have hsplit := List.length_eq_length_filter_add (l := List.range n)
    fun nd => decide (nd ∈ freed)
  rw [List.length_range, hperm.length_eq] at hsplit
  omega

/-- What is deleted once and what remains make up the nodes ever allocated. -/
theorem Owned.length_remaining (howned : s.Owned unlisted) {freed : List Nat}
    (hnodup : freed.Nodup) (hbelow : ∀ nd ∈ freed, nd < s.newAddr) :
    (s.without freed).remaining.length + freed.length = s.newAddr := by
  rw [← length_filter_not_mem hnodup hbelow, remaining]
  congr 2
  apply List.filter_congr
  intro nd hnd
  have hbound : nd < s.newAddr := List.mem_range.mp hnd
  have hlive := howned.live nd
  rw [decide_eq_true hbound] at hlive
  by_cases hfreed : nd ∈ freed
  · simp [without, hfreed]
  · simp [without, hfreed, hlive]

/-- The destructor of a list that any run leads to returns.  It deletes every element and
both sentinels once, and leaves one node for every element erased. -/
theorem destroy_run [LinearOrder K] (k : K) (v : V) (calls : List (SkipCall K V)) :
    ∃ s answers nodes last,
      RunsTo k v calls s answers ∧
        s.levelChain 0 = some nodes ∧
          s.destroy = some (last, s.mHead :: (nodes ++ [s.mTail])) ∧
            (s.mHead :: (nodes ++ [s.mTail])).Nodup ∧
              last.remaining.length = erasures calls answers := by
  obtain ⟨s, hrun, cells, hrep, -⟩ := run_models k v calls
  have howned := run_owned (owned_new k v) hrun.unbounded
  have hchain := levelChain_zero hrep
  have hnodup := hrep.shape.distinct
  refine ⟨s, _, _, _, hrun, hchain, destroy_of_chain hchain howned.tail_end hnodup, hnodup, ?_⟩
  have hremaining := howned.length_remaining hnodup hrep.shape.allocated
  have hcount := howned.count
  rw [hrep.length] at hcount
  have hfreed : (spine s.mHead s.mTail cells).length = cells.length + 2 := by simp [spine]
  rw [hfreed] at hremaining
  change (s.without (spine s.mHead s.mTail cells)).remaining.length = _
  omega

end SkipList

end RedisDB
