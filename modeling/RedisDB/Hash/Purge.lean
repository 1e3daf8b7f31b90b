import RedisDB.Hash.MapRefinement
import RedisDB.Hash.ScanProgress
import RedisDB.Hash.Uniqueness

/-!
# Erasing what a scan reports

A client empties a container with a scan that erases the key of every node it reports.
The removals may finish a rehash and start shrinks, under the cursor of the scan.  No
removal starts an expansion where the entries fit the buckets, and so each of them finds
its node.
-/

namespace RedisDB

open RedisDB.Library

variable {K T : Type}

namespace Hash

/-! ## Removals -/

/-- What removals need to find their nodes: no node is astray, no key is stored twice and
no expansion is due, now or when the rehash in progress is done. -/
structure Erasable (params : HashParams K T) (h : Hash T) : Prop where
  scannable : Scannable params h
  home : AllHome params h
  unique : (h.keys params).Nodup
  fits : h.entries.length ≤ h.mBucketsNumber

variable {params : HashParams K T} {h : Hash T}

theorem Erasable.not_due (herasable : Erasable params h) (hidle : h.isReHashing = false) :
    h.isNeedReHash params = false := by
  have hinv := herasable.scannable.invariant
  have hbackup := hinv.none_of_isReHashing hidle
  have hactive := hinv.idle_of_none hbackup
  have hfits := herasable.fits
  rw [entries_of_none hbackup, ← hinv.idle_size hactive, ← hinv.idle_number hactive] at hfits
  cases hneed : h.isNeedReHash params with
  | false => rfl
  | true => exact absurd (params.factors.lt_of_exceeds hneed) (Nat.not_lt.mpr hfits)

/-- Where shrinking is due a rehash step leaves no more buckets, and room for the entries. -/
theorem number_of_shrink {next : Hash T} (hinv : RehashInvariant h)
    (hneed : h.isNeedShrink params = true) (hrehash : h.rehash params 2 true = some next)
    (hfits : h.entries.length ≤ h.mBucketsNumber) :
    next.mBucketsNumber ≤ h.mBucketsNumber ∧ next.entries.length ≤ next.mBucketsNumber := by
  have hlength := (rehashed hinv (fun _ => .inr hneed) hrehash).contents.length_eq
  cases hbackup : h.mBackup with
  | some backup =>
      have hsome : h.mBackup ≠ none := by
        rw [hbackup]
        exact Option.some_ne_none backup
      rw [hlength, number_of_rehash_busy hinv hsome hrehash]
      exact ⟨Nat.le_refl _, hfits⟩
  | none =>
      have hidle := hinv.idle_of_none hbackup
      have hcount := number_of_rehash_idle hinv hbackup (.inr hneed) hrehash
      have hroom := (getNextPower2_eq_some hcount).2.1
      have hbelow := params.factors.lt_of_below (isNeedShrink_iff.mp hneed).2
      rw [hlength, entries_of_none hbackup, ← hinv.idle_size hidle, ← hinv.idle_number hidle]
      exact ⟨getNextPower2_least hcount hinv.active_count (by omega), hroom⟩

section Calls

variable [DecidableEq K]

theorem Erasable.number_of_erase (herasable : Erasable params h) {next : Hash T} {key : K}
    {status : Bool} (herase : h.erase params key = some (next, status)) :
    next.mBucketsNumber ≤ h.mBucketsNumber ∧ next.entries.length ≤ next.mBucketsNumber := by
  have hinv := herasable.scannable.invariant
  have hfits := herasable.fits
  obtain ⟨middle, cut, hadvance, hcut, hlast⟩ := erase_cases herase
  have hmiddle := rehashed_of_advance hinv hadvance
  have hnumber : middle.mBucketsNumber = h.mBucketsNumber := by
    rw [number_of_advance hinv herasable.scannable.paced hadvance, if_neg]
    rintro ⟨hidle, hneed⟩
    rw [herasable.not_due hidle] at hneed
    cases hneed
  rw [← hmiddle.contents.length_eq, ← hnumber] at hfits
  rw [← hnumber]
  have hcutFits : ∀ {node after}, Cut middle node after →
      after.mBucketsNumber = middle.mBucketsNumber ∧
        after.entries.length ≤ after.mBucketsNumber := by
    intro node after hnode
    have hsame : after.mBucketsNumber = middle.mBucketsNumber := by cases hnode <;> rfl
    have hless := (cut_spec hmiddle.invariant hnode).2.1.length_eq
    rw [List.length_cons] at hless
    exact ⟨hsame, by omega⟩
  rcases erase_ways hmiddle.invariant hcut hlast with
    ⟨-, rfl⟩ | ⟨-, node, -, hnode, -⟩ | ⟨-, node, -, hnode, hshrink, hrehash⟩
  · exact ⟨Nat.le_refl _, hfits⟩
  · obtain ⟨hsame, hroom⟩ := hcutFits hnode
    exact ⟨hsame.le, hroom⟩
  · obtain ⟨hsame, hroom⟩ := hcutFits hnode
    rw [← hsame]
    exact number_of_shrink (cut_spec hmiddle.invariant hnode).1 hshrink hrehash hroom

/-- A removal returns, takes the key out of the container, stores nothing and leaves what
the next removal needs. -/
theorem Erasable.erase (herasable : Erasable params h) (key : K) :
    ∃ next answer, hashStep params h (.erase key) = some (next, answer) ∧
      Erasable params next ∧ next.mBucketsNumber ≤ h.mBucketsNumber ∧
      ∀ node ∈ next.entries, node ∈ h.entries ∧ params.getKey node.mValue ≠ key := by
  have hinv := herasable.scannable.invariant
  have hnever : ∀ {P : Prop}, h.isReHashing = false → h.isNeedReHash params = true → P := by
    intro P hidle hneed
    rw [herasable.not_due hidle] at hneed
    cases hneed
  obtain ⟨middle, hadvance⟩ := advance_isSome params hinv hnever
  have hcontents := (rehashed_of_advance hinv hadvance).contents
  have hfinds : Finds params middle (params.index h.mBucketsMask key) key :=
    finds_of_looksHome hinv herasable.scannable.paced herasable.home hadvance hnever
  have hkeep : ∀ next status, h.erase params key = some (next, status) →
      hashStep params h (.erase key) = some (next, .status status) ∧ Erasable params next ∧
        next.mBucketsNumber ≤ h.mBucketsNumber := by
    intro next status herase
    have hstep : hashStep params h (.erase key) = some (next, .status status) := by
      rw [hashStep, herase]
      rfl
    obtain ⟨hnumber, hfits⟩ := herasable.number_of_erase herase
    have hhome := (home_step hinv herasable.scannable.paced herasable.home hstep).mpr trivial
    have hunique := (nodup_step hinv herasable.unique hstep).mpr trivial
    exact ⟨hstep, ⟨herasable.scannable.step hstep, hhome, hunique, hfits⟩, hnumber⟩
  rcases erase_of_advance hinv hadvance key with
    ⟨hnone, herase⟩ | ⟨node, next, hsome, herase, hperm⟩
  · obtain ⟨hstep, hnext, hnumber⟩ := hkeep middle false herase
    refine ⟨middle, _, hstep, hnext, hnumber, fun node hnode => ⟨hcontents.mem_iff.mp hnode, ?_⟩⟩
    intro hkey
    exact lookup_eq_none_iff.mp hnone node (hfinds node hnode hkey) hkey
  · obtain ⟨hstep, hnext, hnumber⟩ := hkeep next true herase
    refine ⟨next, _, hstep, hnext, hnumber, fun other hother => ?_⟩
    refine ⟨hperm.mem_iff.mpr (List.mem_cons_of_mem _ hother), ?_⟩
    rintro rfl
    exact absent_of_erase hinv herasable.unique hstep (List.mem_map.mpr ⟨other, hother, rfl⟩)

theorem Erasable.eraseAll (herasable : Erasable params h) (keys : List K) :
    ∃ next answers, (hashMachine params).run h (keys.map .erase) = some (next, answers) ∧
      Erasable params next ∧ next.mBucketsNumber ≤ h.mBucketsNumber ∧
      ∀ node ∈ next.entries, node ∈ h.entries ∧ params.getKey node.mValue ∉ keys := by
  induction keys generalizing h with
  | nil =>
      refine ⟨h, [], rfl, herasable, Nat.le_refl _, fun node hnode => ?_⟩
      exact ⟨hnode, List.not_mem_nil⟩
  | cons key rest ih =>
      obtain ⟨middle, answer, hstep, hmiddle, hnumber, hgone⟩ := herasable.erase key
      obtain ⟨next, answers, hrun, hnext, hless, hrest⟩ := ih hmiddle
      refine ⟨next, answer :: answers, ?_, hnext, hless.trans hnumber, fun node hnode => ?_⟩
      · exact Machine.run_cons_eq_some.mpr ⟨middle, answer, answers, hstep, hrun, rfl⟩
      · obtain ⟨hmem, hkey⟩ := hrest node hnode
        exact ⟨(hgone node hmem).1, List.not_mem_cons_of_ne_of_not_mem (hgone node hmem).2 hkey⟩

/-! ## The loop -/

/-- The keys a call of `scan` reports. -/
def reportedKeys (params : HashParams K T) (values : List (HashNode T)) : List K :=
  values.map fun node => params.getKey node.mValue

/-- The loop `do { v = scan(v, out); erase the keys in out; } while (v != 0)`, `none` when
zero has not come back within `fuel` calls. -/
def purge (params : HashParams K T) : Nat → Hash T → BitVec 64 → Option (Hash T)
  | 0, _, _ => none
  | fuel + 1, h, v => do
      let (v', values) ← h.scan v
      let (next, _) ← (hashMachine params).run h ((reportedKeys params values).map .erase)
      if v' = 0 then return next else purge params fuel next v'

theorem purge_succ {next : Hash T} {v v' : BitVec 64} {values : List (HashNode T)}
    {answers : List (HashAnswer T)} (hscan : h.scan v = some (v', values))
    (hrun : (hashMachine params).run h ((reportedKeys params values).map .erase) =
      some (next, answers)) (fuel : Nat) :
    purge params (fuel + 1) h v = if v' = 0 then some next else purge params fuel next v' := by
  rw [purge, hscan, Option.bind_eq_bind, Option.bind_some]
  dsimp only
  rw [hrun]
  rfl

omit [DecidableEq K] in
theorem smallNumber_le_number (hinv : RehashInvariant h) : h.smallNumber ≤ h.mBucketsNumber := by
  rw [← hinv.target_number]
  cases hbackup : h.mBackup with
  | none => exact smallNumber_le List.mem_cons_self
  | some backup => exact smallNumber_le ((mem_tables_of_some hbackup).mpr (.inr rfl))

omit [DecidableEq K] in
/-- At the start of a scan every node is ahead of the cursor. -/
theorem Scannable.tracked (hscannable : Scannable params h) {node : HashNode T}
    (hnode : node ∈ h.entries) : Tracked params 0 node h where
  invariant := hscannable.invariant
  paced := hscannable.paced
  addr := hscannable.addressed.below node hnode
  ahead :=
    ⟨fun index stored hstored _ => hscannable.ahead.1 index stored hstored,
      fun backup hbackup index stored hstored _ =>
        hscannable.ahead.2 backup hbackup index stored hstored⟩

/-- From a cursor that has passed no node of the container, the loop empties it within as
many calls as there are intervals left. -/
theorem Erasable.purge {limit : Nat} (herasable : Erasable params h)
    (hlimit : h.mBucketsNumber ≤ limit) {v : BitVec 64}
    (htracked : ∀ node ∈ h.entries, Tracked params v node h) {fuel : Nat}
    (hfuel : 2 ^ limitBits limit ≤ interval (limitBits limit) v + fuel) :
    ∃ last, purge params fuel h v = some last ∧ last.entries = [] := by
  induction fuel generalizing h v with
  | zero =>
      have hinside := interval_lt (Nat.min_le_right (Nat.log2 limit) 64) v
      rw [Nat.add_zero] at hfuel
      exact absurd hfuel (Nat.not_le.mpr hinside)
  | succ fuel ih =>
      have hinv := herasable.scannable.invariant
      obtain ⟨v', values, hscan⟩ := scan_returns hinv v
      obtain ⟨next, answers, hrun, hnext, hless, hgone⟩ :=
        herasable.eraseAll (reportedKeys params values)
      -- a node that is left was not reported, so it is ahead of the cursor returned
      have hahead : ∀ node ∈ next.entries,
          v' ≠ 0 ∧ rank v' ≤ hashRank params node ∧ Tracked params v' node h := by
        intro node hnode
        obtain ⟨hmem, hkey⟩ := hgone node hnode
        refine ((htracked node hmem).scan hmem hscan).resolve_left fun hreported => ?_
        exact hkey (List.mem_map.mpr ⟨node, hreported, rfl⟩)
      rw [purge_succ hscan hrun]
      by_cases hend : v' = 0
      · refine ⟨next, if_pos hend, List.eq_nil_iff_forall_not_mem.mpr fun node hnode => ?_⟩
        exact (hahead node hnode).1 hend
      · have hpassed := herasable.scannable.interval_lt
          ((smallNumber_le_number hinv).trans hlimit) hscan hend
        rw [if_neg hend]
        refine ih hnext (hless.trans hlimit) (fun node hnode => ?_) (by omega)
        exact (hahead node hnode).2.2.run (hahead node hnode).2.1 hrun

end Calls

end Hash

end RedisDB
