import RedisDB.Hash.ScanCycle

/-!
# A scan comes to its end

Each call of a scan takes the cursor to the start of an interval of the smaller table it
finds.  The intervals of a larger table begin at those places as well, so the cursor has
passed one interval more of every table at least as large.  A scan whose calls all find a
small table makes few calls.
-/

namespace RedisDB

open RedisDB.Library

variable {K T : Type}

namespace Hash

/-! ## One call -/

/-- The interval of a table of `2 ^ bits` buckets that the cursor is in. -/
def interval (bits : Nat) (v : BitVec 64) : Nat := rank v / stride 64 bits

/-- The bits of the largest table that keeps the limit. -/
def limitBits (limit : Nat) : Nat := min (Nat.log2 limit) 64

theorem two_pow_limitBits_le {limit : Nat} (hlimit : limit ≠ 0) : 2 ^ limitBits limit ≤ limit :=
  calc 2 ^ limitBits limit
      _ ≤ 2 ^ Nat.log2 limit := Nat.pow_le_pow_right (by decide) (Nat.min_le_left _ _)
      _ ≤ limit := Nat.log2_self_le hlimit

theorem le_limitBits {bits limit : Nat} (hbits : bits ≤ 64) (hlimit : 2 ^ bits ≤ limit) :
    bits ≤ limitBits limit := by
  have hne : limit ≠ 0 := (Nat.lt_of_lt_of_le (Nat.two_pow_pos bits) hlimit).ne'
  exact Nat.le_min.mpr ⟨(Nat.le_log2 hne).mpr hlimit, hbits⟩

theorem interval_lt {bits : Nat} (hbits : bits ≤ 64) (v : BitVec 64) :
    interval bits v < 2 ^ bits :=
  rank_div_stride_lt hbits v

section Runs

variable [DecidableEq K] {params : HashParams K T}

omit [DecidableEq K] in
theorem smallNumber_pos {h : Hash T} (hinv : RehashInvariant h) : 0 < h.smallNumber := by
  obtain ⟨table, htable, -, hnumber⟩ := smallest_table h
  obtain ⟨bits, -, hbits⟩ := hinv.table_count htable
  rw [hnumber, hbits]
  exact Nat.two_pow_pos bits

omit [DecidableEq K] in
theorem scan_returns {h : Hash T} (hinv : RehashInvariant h) (v : BitVec 64) :
    ∃ v' values, h.scan v = some (v', values) := by
  rcases scan_spec hinv v with ⟨-, hscan⟩ | ⟨-, v', values, -, hscan, -⟩
  · exact ⟨0, [], hscan⟩
  · exact ⟨v', values, hscan⟩

omit [DecidableEq K] in
/-- A call that does not end the scan takes the cursor to a later interval of every table
that is no smaller. -/
theorem Scannable.interval_lt {h : Hash T} {v v' : BitVec 64} {values : List (HashNode T)}
    {limit : Nat} (hscannable : Scannable params h) (hlimit : h.smallNumber ≤ limit)
    (hscan : h.scan v = some (v', values)) (hne : v' ≠ 0) :
    interval (limitBits limit) v < interval (limitBits limit) v' := by
  rcases scan_spec hscannable.invariant v with
    ⟨-, hresult⟩ | ⟨hsize, w', found, small, hresult, hscanned⟩
  · cases hscan.symm.trans hresult
    exact absurd rfl hne
  · cases hscan.symm.trans hresult
    have hscanning : Scanning h small := ⟨hscannable.invariant, hscanned.bits_le, hscanned.mask,
      hsize, hscannable.addressed.nodup⟩
    rw [hscanning.smallNumber_eq] at hlimit
    have hle := le_limitBits hscanned.bits_le hlimit
    have hbits : limitBits limit ≤ 64 := Nat.min_le_right _ _
    have hpassed : rank v < rank v' := by
      rw [cursor_of_ne_zero hscanned hne]
      exact Nat.lt_mul_of_div_lt (Nat.lt_succ_self _) (stride_pos 64 small)
    -- the cursor returned starts an interval of the larger table as well
    have hstart : rank v' = interval (limitBits limit) v' * stride 64 (limitBits limit) := by
      refine (Nat.div_mul_cancel ?_).symm
      rw [cursor_of_ne_zero hscanned hne, stride_eq_mul hle hbits]
      exact (Nat.dvd_mul_left _ _).mul_left _
    rw [hstart] at hpassed
    exact (Nat.div_lt_iff_lt_mul (stride_pos 64 _)).mpr hpassed

/-! ## Whole scans -/

/-- A scan that has not come to its end: from the cursor `v` on, each list of `between`
follows a `scan` call that returned a cursor other than zero.  Answers the state and the
cursor of the next call. -/
def scanOn (params : HashParams K T) :
    Hash T → BitVec 64 → List (List (HashCall K T)) → Option (Hash T × BitVec 64)
  | h, v, [] => some (h, v)
  | h, v, calls :: rest =>
      match h.scan v with
      | some (v', _) =>
          if v' = 0 then none
          else
            match (hashMachine params).run h calls with
            | some (next, _) => scanOn params next v' rest
            | none => none
      | none => none

theorem scanOn_cons_eq_some {h last : Hash T} {v v₁ : BitVec 64}
    {calls : List (HashCall K T)} {rest : List (List (HashCall K T))} :
    scanOn params h v (calls :: rest) = some (last, v₁) ↔
      ∃ v' values next answers, h.scan v = some (v', values) ∧ v' ≠ 0 ∧
        (hashMachine params).run h calls = some (next, answers) ∧
        scanOn params next v' rest = some (last, v₁) := by
  rw [scanOn]
  constructor
  · intro hrun
    split at hrun
    · rename_i v' values hscan
      split at hrun
      · cases hrun
      · rename_i hne
        split at hrun
        · rename_i next answers hcalls
          exact ⟨v', values, next, answers, hscan, hne, hcalls, hrun⟩
        · cases hrun
    · cases hrun
  · rintro ⟨v', values, next, answers, hscan, hne, hcalls, hrest⟩
    rw [hscan]
    dsimp only
    rw [if_neg hne, hcalls]
    exact hrest

/-- Every call of an unfinished scan has passed an interval. -/
theorem Scannable.scanOn {h last : Hash T} {v v₁ : BitVec 64}
    {between : List (List (HashCall K T))} {limit : Nat} (hscannable : Scannable params h)
    (hlimit : ScanAlong params (fun h _ => h.smallNumber ≤ limit) h v between)
    (hrun : scanOn params h v between = some (last, v₁)) :
    Scannable params last ∧ last.smallNumber ≤ limit ∧
      interval (limitBits limit) v + between.length ≤ interval (limitBits limit) v₁ := by
  induction between generalizing h v with
  | nil =>
      cases hrun
      exact ⟨hscannable, hlimit, Nat.le_refl _⟩
  | cons calls rest ih =>
      obtain ⟨v', values, next, answers, hscan, hne, hcalls, hrest⟩ :=
        scanOn_cons_eq_some.mp hrun
      obtain ⟨hfirst, hlater⟩ := hlimit
      rw [hscan, hcalls] at hlater
      have hpassed := hscannable.interval_lt hfirst hscan hne
      have hnext : Scannable params next :=
        Machine.run_invariant (fun _ _ _ _ hprior hstep => hprior.step hstep) hscannable hcalls
      obtain ⟨hlast, hnumber, hintervals⟩ := ih hnext hlater hrest
      refine ⟨hlast, hnumber, ?_⟩
      rw [List.length_cons]
      omega

/-- Whatever is called in between, a scan of which every call finds a table of at most
`limit` buckets makes at most `limit` calls: fewer return a cursor other than zero, each
returns, and the last one possible returns zero. -/
theorem scan_ends (params : HashParams K T) {h last : Hash T} {v : BitVec 64}
    {between : List (List (HashCall K T))} {limit : Nat}
    (hreach : (hashMachine params).Reachable h)
    (hlimit : ScanAlong params (fun h _ => h.smallNumber ≤ limit) h 0 between)
    (hrun : scanOn params h 0 between = some (last, v)) :
    between.length < limit ∧
      ∃ v' values, last.scan v = some (v', values) ∧ (between.length + 1 = limit → v' = 0) := by
  obtain ⟨hlast, hnumber, hpassed⟩ := (reachable_scannable params hreach).scanOn hlimit hrun
  have hne : limit ≠ 0 := (Nat.lt_of_lt_of_le (smallNumber_pos hlast.invariant) hnumber).ne'
  have hpow := two_pow_limitBits_le hne
  have hbits : limitBits limit ≤ 64 := Nat.min_le_right _ _
  have hinside := interval_lt hbits v
  obtain ⟨v', values, hscan⟩ := scan_returns hlast.invariant v
  refine ⟨by omega, v', values, hscan, fun hall => ?_⟩
  by_contra hgoes
  have hnext := hlast.interval_lt hnumber hscan hgoes
  have hend := interval_lt hbits v'
  omega

/-- Three entries in four buckets. -/
def threeEntries : Hash (Nat × Nat) :=
  (hashMachine HashParams.identity).stateAfter (insertions [0, 1, 2]) (by decide)

/-- The fourth call ends the scan, whatever the insertion and the removal do. -/
theorem scan_ends_threeEntries : ∃ last v values,
    scanOn HashParams.identity threeEntries 0 [[.insert (3, 3)], [.erase 0, .get 3], []] =
        some (last, v) ∧
      last.scan v = some (0, values) := by
  obtain ⟨⟨last, v⟩, hrun⟩ := Option.isSome_iff_exists.mp
    (by decide : (scanOn HashParams.identity threeEntries 0
      [[.insert (3, 3)], [.erase 0, .get 3], []]).isSome = true)
  have hlimit : ScanAlong HashParams.identity (fun h _ => h.smallNumber ≤ 4) threeEntries 0
      [[.insert (3, 3)], [.erase 0, .get 3], []] := by decide
  obtain ⟨-, v', values, hscan, hlast⟩ :=
    scan_ends HashParams.identity (Machine.reachable_stateAfter _ _ _) hlimit hrun
  obtain rfl := hlast rfl
  exact ⟨last, v, values, hrun, hscan⟩

end Runs

end Hash

end RedisDB
