import Mathlib.Data.List.Basic

/-!
# Incremental consumers

A consumer is fed one symbol at a time.  Each symbol leaves it in a new state or
ends the reading with a verdict, and what follows the last symbol read is not
looked at.  The module holds the rules a parser written this way is verified
with: how feeding composes, which words are read completely, how a loop over a
field and a literal symbol are inverted, and when a word can still be completed.
-/

namespace RedisDB.Library

universe u v w x

/-- Reading goes on in a new state, or it has ended with a verdict. -/
inductive Progress (State : Type u) (Verdict : Type v) where
  | more (state : State)
  | ended (verdict : Verdict)
  deriving DecidableEq

/-- What one symbol does in each state. -/
structure Consumer (State : Type u) (Symbol : Type v) (Verdict : Type w) where
  step : State → Symbol → Progress State Verdict

namespace Consumer

variable {State : Type u} {Symbol : Type v} {Verdict : Type w}

/-- Feed the symbols until the reading ends; the rest of them comes with the verdict. -/
def feed (consumer : Consumer State Symbol Verdict) :
    State → List Symbol → Progress State (Verdict × List Symbol)
  | state, [] => .more state
  | state, symbol :: rest =>
      match consumer.step state symbol with
      | .more next => consumer.feed next rest
      | .ended verdict => .ended (verdict, rest)

variable {consumer : Consumer State Symbol Verdict}

@[simp]
theorem feed_nil (state : State) : consumer.feed state [] = .more state := rfl

theorem feed_cons_of_more {state next : State} {symbol : Symbol} (rest : List Symbol)
    (hstep : consumer.step state symbol = .more next) :
    consumer.feed state (symbol :: rest) = consumer.feed next rest := by
  rw [feed, hstep]

theorem feed_cons_of_ended {state : State} {symbol : Symbol} {verdict : Verdict}
    (rest : List Symbol) (hstep : consumer.step state symbol = .ended verdict) :
    consumer.feed state (symbol :: rest) = .ended (verdict, rest) := by
  rw [feed, hstep]

/-! ## Feeding in pieces -/

/-- Once the reading has ended, further symbols only lengthen the rest. -/
theorem feed_append (state : State) (first second : List Symbol) :
    consumer.feed state (first ++ second) =
      match consumer.feed state first with
      | .more next => consumer.feed next second
      | .ended (verdict, rest) => .ended (verdict, rest ++ second) := by
  induction first generalizing state with
  | nil => rfl
  | cons symbol first ih =>
      rw [List.cons_append, feed, feed]
      cases consumer.step state symbol with
      | more next => exact ih next
      | ended verdict => rfl

theorem feed_append_of_more {state next : State} {first : List Symbol}
    (hfirst : consumer.feed state first = .more next) (second : List Symbol) :
    consumer.feed state (first ++ second) = consumer.feed next second := by
  rw [feed_append, hfirst]

theorem feed_append_of_ended {state : State} {first rest : List Symbol} {verdict : Verdict}
    (hfirst : consumer.feed state first = .ended (verdict, rest)) (second : List Symbol) :
    consumer.feed state (first ++ second) = .ended (verdict, rest ++ second) := by
  rw [feed_append, hfirst]

/-- What every symbol keeps that does not end the reading holds while it goes on. -/
theorem feed_invariant {Inv : State → Prop}
    (hkeep : ∀ state symbol next, Inv state → consumer.step state symbol = .more next →
      Inv next)
    {state next : State} {input : List Symbol} (hstate : Inv state)
    (hmore : consumer.feed state input = .more next) : Inv next := by
  induction input generalizing state with
  | nil =>
      cases hmore
      exact hstate
  | cons symbol input ih =>
      cases hstep : consumer.step state symbol with
      | more middle =>
          rw [feed_cons_of_more input hstep] at hmore
          exact ih (hkeep _ _ _ hstate hstep) hmore
      | ended verdict =>
          rw [feed_cons_of_ended input hstep] at hmore
          cases hmore

/-! ## What was read -/

/-- A reading that has ended, at its last symbol. -/
theorem feed_eq_ended_iff {state : State} {input rest : List Symbol} {verdict : Verdict} :
    consumer.feed state input = .ended (verdict, rest) ↔
      ∃ read last next, input = read ++ last :: rest ∧
        consumer.feed state read = .more next ∧
        consumer.step next last = .ended verdict := by
  constructor
  · intro hfeed
    induction input generalizing state with
    | nil => cases hfeed
    | cons symbol input ih =>
        rw [feed] at hfeed
        cases hstep : consumer.step state symbol with
        | more next =>
            rw [hstep] at hfeed
            obtain ⟨read, last, final, rfl, hread, hlast⟩ := ih hfeed
            refine ⟨symbol :: read, last, final, rfl, ?_, hlast⟩
            rw [feed_cons_of_more read hstep, hread]
        | ended ending =>
            rw [hstep] at hfeed
            cases hfeed
            exact ⟨[], symbol, state, rfl, rfl, hstep⟩
  · rintro ⟨read, last, next, rfl, hread, hlast⟩
    rw [feed_append_of_more hread, feed_cons_of_ended rest hlast]

/-- The word is read to its last symbol and not further. -/
def Reads (consumer : Consumer State Symbol Verdict) (state : State) (word : List Symbol)
    (verdict : Verdict) : Prop :=
  consumer.feed state word = .ended (verdict, [])

/-- Every reading that ends has read one word completely. -/
theorem feed_eq_ended_iff_reads {state : State} {input rest : List Symbol}
    {verdict : Verdict} :
    consumer.feed state input = .ended (verdict, rest) ↔
      ∃ word, input = word ++ rest ∧ consumer.Reads state word verdict := by
  constructor
  · intro hfeed
    obtain ⟨read, last, next, rfl, hread, hlast⟩ := feed_eq_ended_iff.mp hfeed
    refine ⟨read ++ [last], by simp, ?_⟩
    exact feed_eq_ended_iff.mpr ⟨read, last, next, rfl, hread, hlast⟩
  · rintro ⟨word, rfl, hword⟩
    simpa using feed_append_of_ended hword rest

/-- No word that is read completely begins another one: the set of them is prefix free. -/
theorem Reads.eq_of_append_eq {state : State} {word word' rest rest' : List Symbol}
    {verdict verdict' : Verdict} (hword : consumer.Reads state word verdict)
    (hword' : consumer.Reads state word' verdict') (heq : word ++ rest = word' ++ rest') :
    word = word' ∧ rest = rest' ∧ verdict = verdict' := by
  have hfeed := feed_append_of_ended hword rest
  have hfeed' := feed_append_of_ended hword' rest'
  rw [heq, hfeed'] at hfeed
  simp only [List.nil_append, Progress.ended.injEq, Prod.mk.injEq] at hfeed
  obtain ⟨hverdict, hrest⟩ := hfeed
  subst hrest
  exact ⟨List.append_cancel_right heq, rfl, hverdict.symm⟩

/-! ## Literals and fields -/

/-- In front of a literal symbol every other symbol ends the reading with another verdict. -/
theorem feed_literal_iff {state next : State} {symbol : Symbol} {verdict : Verdict}
    (hsymbol : consumer.step state symbol = .more next)
    (hother : ∀ other, other ≠ symbol →
      ∃ ending, consumer.step state other = .ended ending ∧ ending ≠ verdict)
    {input rest : List Symbol} :
    consumer.feed state input = .ended (verdict, rest) ↔
      ∃ tail, input = symbol :: tail ∧ consumer.feed next tail = .ended (verdict, rest) := by
  cases input with
  | nil => simp
  | cons first tail =>
      by_cases hfirst : first = symbol
      · subst hfirst
        rw [feed_cons_of_more tail hsymbol]
        simp
      · obtain ⟨ending, hending, hne⟩ := hother first hfirst
        rw [feed_cons_of_ended tail hending]
        simp [hfirst, hne]

variable {Field : Type x}

/-- A loop over a field: `enter` is the state with the part of the field read so
far, `push` adds one symbol to it or refuses the symbol, and the symbol `stop`
leaves the loop.  A refused symbol ends the reading. -/
structure Loop (consumer : Consumer State Symbol Verdict) (enter : Field → State)
    (push : Field → Symbol → Option Field) (stop : Symbol) (leave : Field → State) :
    Prop where
  stop_refused : ∀ field, push field stop = none
  step_push : ∀ field symbol longer, push field symbol = some longer →
    consumer.step (enter field) symbol = .more (enter longer)
  step_stop : ∀ field, consumer.step (enter field) stop = .more (leave field)
  step_refused : ∀ field symbol, symbol ≠ stop → push field symbol = none →
    ∃ ending, consumer.step (enter field) symbol = .ended ending

section Field

variable {enter leave : Field → State} {push : Field → Symbol → Option Field}
  {stop : Symbol}

/-- The symbols of a field are read in the loop. -/
theorem Loop.feed_append (hloop : consumer.Loop enter push stop leave)
    {field last : Field} {symbols : List Symbol}
    (hsymbols : symbols.foldlM push field = some last) (rest : List Symbol) :
    consumer.feed (enter field) (symbols ++ rest) = consumer.feed (enter last) rest := by
  induction symbols generalizing field with
  | nil =>
      cases hsymbols
      rfl
  | cons symbol symbols ih =>
      rw [List.foldlM_cons] at hsymbols
      obtain ⟨longer, hpush, htail⟩ := Option.bind_eq_some_iff.mp hsymbols
      rw [List.cons_append, feed_cons_of_more _ (hloop.step_push _ _ _ hpush), ih htail]

/-- A verdict is reached from within the loop by leaving it, or where the loop
refuses a symbol. -/
theorem Loop.feed_iff (hloop : consumer.Loop enter push stop leave) {field : Field}
    {input rest : List Symbol} {verdict : Verdict} :
    consumer.feed (enter field) input = .ended (verdict, rest) ↔
      (∃ symbols tail last, input = symbols ++ stop :: tail ∧
        symbols.foldlM push field = some last ∧
        consumer.feed (leave last) tail = .ended (verdict, rest)) ∨
      ∃ symbols refused last, input = symbols ++ refused :: rest ∧
        symbols.foldlM push field = some last ∧ refused ≠ stop ∧
        push last refused = none ∧ consumer.step (enter last) refused = .ended verdict := by
  constructor
  · intro hfeed
    induction input generalizing field with
    | nil => cases hfeed
    | cons symbol input ih =>
        cases hpush : push field symbol with
        | some longer =>
            rw [feed_cons_of_more input (hloop.step_push _ _ _ hpush)] at hfeed
            rcases ih hfeed with ⟨symbols, tail, last, rfl, hsymbols, hlast⟩ |
              ⟨symbols, refused, last, rfl, hsymbols, hrefused⟩
            · refine Or.inl ⟨symbol :: symbols, tail, last, rfl, ?_, hlast⟩
              simpa [List.foldlM_cons, hpush] using hsymbols
            · refine Or.inr ⟨symbol :: symbols, refused, last, rfl, ?_, hrefused⟩
              simpa [List.foldlM_cons, hpush] using hsymbols
        | none =>
            by_cases hstop : symbol = stop
            · subst hstop
              rw [feed_cons_of_more input (hloop.step_stop field)] at hfeed
              exact Or.inl ⟨[], input, field, rfl, rfl, hfeed⟩
            · obtain ⟨ending, hending⟩ := hloop.step_refused field symbol hstop hpush
              rw [feed_cons_of_ended input hending] at hfeed
              cases hfeed
              exact Or.inr ⟨[], symbol, field, rfl, rfl, hstop, hpush, hending⟩
  · rintro (⟨symbols, tail, last, rfl, hsymbols, hlast⟩ |
      ⟨symbols, refused, last, rfl, hsymbols, -, -, hending⟩)
    · rw [hloop.feed_append hsymbols, feed_cons_of_more tail (hloop.step_stop last), hlast]
    · rw [hloop.feed_append hsymbols, feed_cons_of_ended rest hending]

/-- Symbols that are refused as a field are refused at one of them. -/
theorem exists_refused {field : Field} {symbols : List Symbol}
    (hnone : symbols.foldlM push field = none) :
    ∃ read refused tail last, symbols = read ++ refused :: tail ∧
      read.foldlM push field = some last ∧ push last refused = none := by
  induction symbols generalizing field with
  | nil => cases hnone
  | cons symbol symbols ih =>
      cases hpush : push field symbol with
      | none => exact ⟨[], symbol, symbols, field, rfl, rfl, hpush⟩
      | some longer =>
          rw [List.foldlM_cons, hpush] at hnone
          obtain ⟨read, refused, tail, last, rfl, hread, hrefused⟩ := ih hnone
          refine ⟨symbol :: read, refused, tail, last, rfl, ?_, hrefused⟩
          rw [List.foldlM_cons, hpush]
          exact hread

/-- Where no refused symbol gives the verdict, it is reached by leaving the loop. -/
theorem Loop.feed_iff_leave (hloop : consumer.Loop enter push stop leave) (verdict : Verdict)
    (hrefused : ∀ field symbol, symbol ≠ stop → push field symbol = none →
      consumer.step (enter field) symbol ≠ .ended verdict)
    {field : Field} {input rest : List Symbol} :
    consumer.feed (enter field) input = .ended (verdict, rest) ↔
      ∃ symbols tail last, input = symbols ++ stop :: tail ∧
        symbols.foldlM push field = some last ∧
        consumer.feed (leave last) tail = .ended (verdict, rest) := by
  rw [hloop.feed_iff, or_iff_left]
  rintro ⟨symbols, refused, last, -, -, hne, hnone, hending⟩
  exact hrefused last refused hne hnone hending

/-- A loop that is entered by its first symbol. -/
theorem Loop.feed_iff_leave_of_first (hloop : consumer.Loop enter push stop leave)
    (start : State) (empty : Field) (verdict : Verdict)
    (hfirst : ∀ symbol longer, push empty symbol = some longer →
      consumer.step start symbol = .more (enter longer))
    (hnone : ∀ symbol, push empty symbol = none →
      ∃ ending, consumer.step start symbol = .ended ending ∧ ending ≠ verdict)
    (hrefused : ∀ field symbol, symbol ≠ stop → push field symbol = none →
      consumer.step (enter field) symbol ≠ .ended verdict)
    {input rest : List Symbol} :
    consumer.feed start input = .ended (verdict, rest) ↔
      ∃ symbols tail last, input = symbols ++ stop :: tail ∧ symbols ≠ [] ∧
        symbols.foldlM push empty = some last ∧
        consumer.feed (leave last) tail = .ended (verdict, rest) := by
  constructor
  · intro hfeed
    cases input with
    | nil => cases hfeed
    | cons symbol input =>
        cases hpush : push empty symbol with
        | none =>
            obtain ⟨ending, hending, hne⟩ := hnone symbol hpush
            rw [feed_cons_of_ended input hending] at hfeed
            simp only [Progress.ended.injEq, Prod.mk.injEq] at hfeed
            exact absurd hfeed.1 hne
        | some longer =>
            rw [feed_cons_of_more input (hfirst symbol longer hpush),
              hloop.feed_iff_leave verdict hrefused] at hfeed
            obtain ⟨symbols, tail, last, rfl, hsymbols, hlast⟩ := hfeed
            refine ⟨symbol :: symbols, tail, last, rfl, List.cons_ne_nil _ _, ?_, hlast⟩
            simpa [List.foldlM_cons, hpush] using hsymbols
  · rintro ⟨symbols, tail, last, rfl, hne, hsymbols, hlast⟩
    cases symbols with
    | nil => exact absurd rfl hne
    | cons symbol symbols =>
        rw [List.foldlM_cons] at hsymbols
        obtain ⟨longer, hpush, htail⟩ := Option.bind_eq_some_iff.mp hsymbols
        rw [List.cons_append, feed_cons_of_more _ (hfirst symbol longer hpush)]
        exact (hloop.feed_iff_leave verdict hrefused).mpr ⟨symbols, tail, last, rfl, htail, hlast⟩

end Field

/-! ## Fields of text -/

/-- Add a symbol that may stand in the field. -/
def appendIf (allowed : Symbol → Bool) (field : List Symbol) (symbol : Symbol) :
    Option (List Symbol) :=
  if allowed symbol then some (field ++ [symbol]) else none

theorem appendIf_eq_none {allowed : Symbol → Bool} {field : List Symbol} {symbol : Symbol} :
    appendIf allowed field symbol = none ↔ allowed symbol = false := by
  simp [appendIf]

theorem appendIf_eq_some {allowed : Symbol → Bool} {field longer : List Symbol}
    {symbol : Symbol} :
    appendIf allowed field symbol = some longer ↔
      allowed symbol = true ∧ field ++ [symbol] = longer := by
  simp [appendIf]

/-- A field of text is read if every symbol of it is allowed there. -/
theorem foldlM_appendIf {allowed : Symbol → Bool} {field symbols last : List Symbol} :
    symbols.foldlM (appendIf allowed) field = some last ↔
      (∀ symbol ∈ symbols, allowed symbol = true) ∧ field ++ symbols = last := by
  induction symbols generalizing field with
  | nil => simp
  | cons symbol symbols ih =>
      rw [List.foldlM_cons, List.forall_mem_cons]
      cases hallowed : allowed symbol with
      | false => simp [appendIf, hallowed]
      | true => simp [appendIf, hallowed, ih]

section Text

variable {enter leave : List Symbol → State} {allowed : Symbol → Bool} {stop : Symbol}

/-- A field of text and the symbol after it. -/
theorem Loop.feed_text_iff (hloop : consumer.Loop enter (appendIf allowed) stop leave)
    (verdict : Verdict)
    (hrefused : ∀ field symbol, symbol ≠ stop → allowed symbol = false →
      consumer.step (enter field) symbol ≠ .ended verdict)
    {field input rest : List Symbol} :
    consumer.feed (enter field) input = .ended (verdict, rest) ↔
      ∃ text tail, input = text ++ stop :: tail ∧ (∀ c ∈ text, allowed c = true) ∧
        consumer.feed (leave (field ++ text)) tail = .ended (verdict, rest) := by
  rw [hloop.feed_iff_leave verdict fun field symbol hne hpush =>
    hrefused field symbol hne (appendIf_eq_none.mp hpush)]
  constructor
  · rintro ⟨text, tail, last, rfl, htext, hlast⟩
    obtain ⟨hallowed, rfl⟩ := foldlM_appendIf.mp htext
    exact ⟨text, tail, rfl, hallowed, hlast⟩
  · rintro ⟨text, tail, rfl, hallowed, htail⟩
    exact ⟨text, tail, _, rfl, foldlM_appendIf.mpr ⟨hallowed, rfl⟩, htail⟩

/-- A field of text that is entered by its first symbol, which it therefore has. -/
theorem Loop.feed_text_iff_of_first
    (hloop : consumer.Loop enter (appendIf allowed) stop leave) (start : State)
    (verdict : Verdict)
    (hfirst : ∀ symbol, allowed symbol = true →
      consumer.step start symbol = .more (enter [symbol]))
    (hnone : ∀ symbol, allowed symbol = false →
      ∃ ending, consumer.step start symbol = .ended ending ∧ ending ≠ verdict)
    (hrefused : ∀ field symbol, symbol ≠ stop → allowed symbol = false →
      consumer.step (enter field) symbol ≠ .ended verdict)
    {input rest : List Symbol} :
    consumer.feed start input = .ended (verdict, rest) ↔
      ∃ text tail, input = text ++ stop :: tail ∧ text ≠ [] ∧
        (∀ c ∈ text, allowed c = true) ∧
        consumer.feed (leave text) tail = .ended (verdict, rest) := by
  have hpushed : ∀ symbol longer, appendIf allowed [] symbol = some longer →
      consumer.step start symbol = .more (enter longer) := by
    intro symbol longer hpush
    obtain ⟨hallowed, rfl⟩ := appendIf_eq_some.mp hpush
    exact hfirst symbol hallowed
  rw [hloop.feed_iff_leave_of_first start [] verdict hpushed
    (fun symbol hpush => hnone symbol (appendIf_eq_none.mp hpush))
    (fun field symbol hne hpush => hrefused field symbol hne (appendIf_eq_none.mp hpush))]
  constructor
  · rintro ⟨text, tail, last, rfl, hne, htext, hlast⟩
    obtain ⟨hallowed, rfl⟩ := foldlM_appendIf.mp htext
    exact ⟨text, tail, rfl, hne, hallowed, hlast⟩
  · rintro ⟨text, tail, rfl, hne, hallowed, htail⟩
    exact ⟨text, tail, text, rfl, hne, foldlM_appendIf.mpr ⟨hallowed, rfl⟩, htail⟩

end Text

/-! ## Completable states -/

/-- In every state that reading can reach, some word is still read with the verdict. -/
def Completable (consumer : Consumer State Symbol Verdict) (state : State)
    (Wanted : Verdict → Prop) : Prop :=
  ∀ read next, consumer.feed state read = .more next →
    ∃ word verdict, consumer.Reads next word verdict ∧ Wanted verdict

/-- The word begins one that is read with a wanted verdict. -/
def Begins (consumer : Consumer State Symbol Verdict) (state : State)
    (Wanted : Verdict → Prop) (word : List Symbol) : Prop :=
  ∃ tail verdict, consumer.Reads state (word ++ tail) verdict ∧ Wanted verdict

/-- The word begins a longer one that is read with a wanted verdict. -/
def ProperlyBegins (consumer : Consumer State Symbol Verdict) (state : State)
    (Wanted : Verdict → Prop) (word : List Symbol) : Prop :=
  ∃ tail verdict, tail ≠ [] ∧ consumer.Reads state (word ++ tail) verdict ∧ Wanted verdict

/-- The reading goes on exactly as long as the input properly begins a wanted word. -/
theorem Completable.more_iff {state : State} {Wanted : Verdict → Prop}
    (hcompletable : consumer.Completable state Wanted) {input : List Symbol} :
    (∃ next, consumer.feed state input = .more next) ↔
      consumer.ProperlyBegins state Wanted input := by
  constructor
  · rintro ⟨next, hmore⟩
    obtain ⟨word, verdict, hword, hwanted⟩ := hcompletable input next hmore
    refine ⟨word, verdict, ?_, ?_, hwanted⟩
    · rintro rfl
      cases hword
    · exact (feed_append_of_more hmore word).trans hword
  · rintro ⟨tail, verdict, htail, hreads, -⟩
    cases hinput : consumer.feed state input with
    | more next => exact ⟨next, rfl⟩
    | ended ending =>
        obtain ⟨ending, rest⟩ := ending
        have happend := feed_append_of_ended hinput tail
        rw [hreads] at happend
        simp only [Progress.ended.injEq, Prod.mk.injEq] at happend
        exact absurd (List.append_eq_nil_iff.mp happend.2.symm).2 htail

/-- A word on which the reading ends begins a wanted one only if it is wanted itself. -/
theorem Reads.wanted_of_begins {state : State} {Wanted : Verdict → Prop}
    {word : List Symbol} {verdict : Verdict} (hreads : consumer.Reads state word verdict)
    (hbegins : consumer.Begins state Wanted word) : Wanted verdict := by
  obtain ⟨tail, verdict', hreads', hwanted⟩ := hbegins
  obtain ⟨-, -, rfl⟩ := hreads.eq_of_append_eq hreads' (List.append_nil (word ++ tail)).symm
  exact hwanted

/-- The reading ends with an unwanted verdict at the first symbol with which the
input begins no wanted word any more. -/
theorem Completable.unwanted_iff {state : State} {Wanted : Verdict → Prop}
    (hcompletable : consumer.Completable state Wanted) {input rest : List Symbol} :
    (∃ verdict, ¬ Wanted verdict ∧ consumer.feed state input = .ended (verdict, rest)) ↔
      ∃ read last, input = read ++ last :: rest ∧
        consumer.ProperlyBegins state Wanted read ∧
        ¬ consumer.Begins state Wanted (read ++ [last]) := by
  constructor
  · rintro ⟨verdict, hunwanted, hfeed⟩
    obtain ⟨read, last, next, rfl, hread, hlast⟩ := feed_eq_ended_iff.mp hfeed
    have hends : consumer.Reads state (read ++ [last]) verdict :=
      feed_eq_ended_iff.mpr ⟨read, last, next, rfl, hread, hlast⟩
    exact ⟨read, last, rfl, hcompletable.more_iff.mp ⟨next, hread⟩,
      fun hbegins => hunwanted (hends.wanted_of_begins hbegins)⟩
  · rintro ⟨read, last, rfl, hbegins, hnone⟩
    obtain ⟨next, hread⟩ := hcompletable.more_iff.mpr hbegins
    rw [feed_append_of_more hread]
    cases hlast : consumer.step next last with
    | more final =>
        have hfinal : consumer.feed state (read ++ [last]) = .more final := by
          rw [feed_append_of_more hread, feed_cons_of_more [] hlast, feed_nil]
        obtain ⟨tail, verdict, -, hreads, hwanted⟩ := hcompletable.more_iff.mp ⟨final, hfinal⟩
        exact absurd ⟨tail, verdict, hreads, hwanted⟩ hnone
    | ended ending =>
        refine ⟨ending, fun hwanted => hnone ⟨[], ending, ?_, hwanted⟩,
          feed_cons_of_ended rest hlast⟩
        unfold Reads
        rw [List.append_nil, feed_append_of_more hread, feed_cons_of_ended [] hlast]

end Consumer

end RedisDB.Library
