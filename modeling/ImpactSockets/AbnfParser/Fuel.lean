import ImpactSockets.AbnfParser.Numerals
import ImpactSockets.AbnfParser.Recursive

/-! What more fuel changes, and what a run that returns has not met. -/
namespace ImpactSockets.AbnfParser

open Fuelled Scan

variable {order : Order} {b : Bool} {m n : Nat} {p q inner more : Scan Bool}

/-! ### More fuel -/

/-- More fuel for the body is more fuel for the attempt. -/
theorem extends_attempt (h : Extends p q) : Extends (attempt p) (attempt q) :=
  (Extends.refl _).bind fun _ => h.bind fun _ => .refl _

/-- More fuel for either function is more fuel for the choice. -/
theorem extends_orElse (hp : Extends p q) (hq : Extends inner more) : Extends (orElse p inner) (orElse q more) :=
  hp.bind fun _ => extends_ite (.refl _) hq

/-- The loop over blanks goes on where less fuel ends. -/
theorem extends_skipWsp (h : m ≤ n) : Extends (skipWsp order m) (skipWsp order n) := by
  refine @extends_of_step _ _ _ Unit (fun n _ => skipWsp order n) (fun n _ => skipWsp order n) (fun _ => rfl)
    (fun m n _ ih _ => ?_) m n h ()
  exact (Extends.refl _).bind fun _ => (Extends.refl _).bind fun _ => extends_ite ((Extends.refl _).bind fun _ =>
    (Extends.refl _).bind fun _ => (ih ()).bind fun _ => .refl _) (.refl _)

theorem extends_definedAs (h : m ≤ n) : Extends (definedAs order m) (definedAs order n) :=
  extends_attempt <| (extends_skipWsp h).bind fun _ => (Extends.refl _).bind fun _ => (Extends.refl _).bind fun _ =>
    extends_ite ((Extends.refl _).bind fun _ => (extends_skipWsp h).bind fun _ => .refl _)
      (extends_ite ((extends_skipWsp h).bind fun _ => .refl _) (.refl _))

/-- More fuel inside the brackets, and for the blanks in them. -/
theorem extends_brackets (h : m ≤ n) (hInner : Extends inner more) (first last : UInt8) :
    Extends (brackets order m inner first last) (brackets order n more first last) := by
  have hEnclosed : Extends (enclosed order m inner first last) (enclosed order n more first last) :=
    (Extends.refl _).bind fun _ => extends_ite (.refl _) ((extends_skipWsp h).bind fun _ => hInner.bind fun _ =>
      extends_ite (.refl _) ((extends_skipWsp h).bind fun _ => .refl _))
  exact (Extends.refl _).bind fun _ => hEnclosed.bind fun _ => .refl _

/-- More fuel for the element of a repetition. -/
theorem extends_repetitionWith (h : m ≤ n) (hInner : Extends inner more) :
    Extends (repetitionWith order m inner) (repetitionWith order n more) :=
  (Extends.refl _).bind fun _ => extends_orElse (.refl _) <|
    extends_orElse (extends_brackets h hInner _ _) <| extends_orElse (extends_brackets h hInner _ _) (.refl _)

/-- The loop over repetitions goes on where less fuel ends, by induction on the lesser fuel. -/
theorem extends_concatenationLoop (h : m ≤ n) (hInner : Extends inner more) {k l : Nat} (hLoop : k ≤ l)
    (i : Option Nat × Bool) :
    Extends (concatenationLoop order m inner k i.1 i.2) (concatenationLoop order n more l i.1 i.2) := by
  refine @extends_of_step _ _ _ (Option Nat × Bool) (fun k i => concatenationLoop order m inner k i.1 i.2)
    (fun k i => concatenationLoop order n more k i.1 i.2) (fun _ => rfl) (fun k l hLoop ih i => ?_) k l hLoop i
  exact (Extends.refl _).bind fun _ => (Extends.refl _).bind fun _ => extends_ite
    ((extends_skipWsp hLoop).bind fun _ => (extends_repetitionWith h hInner).bind fun _ => extends_ite
      ((Extends.refl _).bind fun offset => (Extends.refl _).bind fun _ => (Extends.refl _).bind fun _ =>
        ih (offset, true)) (.refl _)) (.refl _)

theorem extends_concatenationWith (h : m ≤ n) (hInner : Extends inner more) :
    Extends (concatenationWith order m inner b) (concatenationWith order n more b) :=
  (Extends.refl _).bind fun _ => (extends_repetitionWith h hInner).bind fun _ => (Extends.refl _).bind fun offset =>
    (extends_concatenationLoop h hInner h (offset, b)).bind fun _ => .refl _

/-- The loop over concatenations goes on where less fuel ends, by induction on the lesser fuel. -/
theorem extends_alternationLoop (h : m ≤ n) (hInner : Extends inner more) {k l : Nat} (hLoop : k ≤ l)
    (offset : Option Nat) :
    Extends (alternationLoop order m inner b k offset) (alternationLoop order n more b l offset) := by
  refine @extends_of_step _ _ _ _ (alternationLoop order m inner b) (alternationLoop order n more b) (fun _ => rfl)
    (fun k l _ ih offset => ?_) k l hLoop offset
  exact (Extends.refl _).bind fun _ => (extends_skipWsp h).bind fun _ => (Extends.refl _).bind fun _ => extends_ite
    (.refl _) ((extends_skipWsp h).bind fun _ => (extends_concatenationWith h hInner).bind fun _ => extends_ite
      ((Extends.refl _).bind fun offset => (Extends.refl _).bind fun _ => (Extends.refl _).bind fun _ => ih offset)
      (.refl _))

/-- A run of `alternation` with a result is the run with any larger fuel. -/
theorem extends_alternation (h : m ≤ n) : Extends (alternation order b m) (alternation order b n) := by
  refine @extends_of_step _ _ _ Unit (fun n _ => alternation order b n) (fun n _ => alternation order b n)
    (fun _ => rfl) (fun m n h ih _ => ?_) m n h ()
  have hFuel : m + 1 ≤ n + 1 := by omega
  exact (Extends.refl _).bind fun _ => (extends_concatenationWith hFuel (ih ())).bind fun _ => (Extends.refl _).bind
    fun offset => (extends_alternationLoop hFuel (ih ()) hFuel offset).bind fun _ => .refl _

/-- The loop over the lines of a rule goes on where less fuel ends. -/
theorem extends_ruleLoop (h : m ≤ n) {k l : Nat} (hLoop : k ≤ l) (next : Bool) :
    Extends (ruleLoop order b m k next) (ruleLoop order b n l next) := by
  have hElements : Extends (elements order b m) (elements order b n) :=
    (extends_alternation h).bind fun _ => extends_ite ((extends_skipWsp h).bind fun _ => .refl _) (.refl _)
  refine @extends_of_step _ _ _ _ (ruleLoop order b m) (ruleLoop order b n) (fun _ => rfl) (fun k l _ ih next => ?_)
    k l hLoop next
  have hSkip : Extends (when next do let _ ← skipWsp order m) (when next do let _ ← skipWsp order n) :=
    extends_ite ((extends_skipWsp h).bind fun _ => .refl _) (.refl _)
  exact (Extends.refl _).bind fun _ => hSkip.bind fun _ => hElements.bind fun _ => extends_ite (.refl _)
    ((Extends.refl _).bind fun _ => extends_ite (.refl _) ((Extends.refl _).bind fun _ => extends_ite
      ((Extends.refl _).bind fun _ => (Extends.refl _).bind fun _ => ih true) (.refl _)))

/-- The loop over the rules goes on where less fuel ends. -/
theorem extends_rulelistLoop (h : m ≤ n) {k l : Nat} (hLoop : k ≤ l) (success : Bool) :
    Extends (rulelistLoop order b m k success) (rulelistLoop order b n l success) := by
  have hRule : Extends (rule order b m) (rule order b n) :=
    extends_attempt <| (Extends.refl _).bind fun _ => extends_ite (.refl _) ((extends_definedAs h).bind fun _ =>
      extends_ite (.refl _) (extends_ruleLoop h h false))
  refine @extends_of_step _ _ _ _ (rulelistLoop order b m) (rulelistLoop order b n) (fun _ => rfl)
    (fun k l _ ih success => ?_) k l hLoop success
  have hTurn (before : Nat) : Extends (do emit (.turn before (← position)); rulelistLoop order b m k true)
      (do emit (.turn before (← position)); rulelistLoop order b n l true) :=
    (Extends.refl _).bind fun _ => (Extends.refl _).bind fun _ => ih true
  exact (Extends.refl _).bind fun before => hRule.bind fun _ => extends_ite (hTurn before)
    ((extends_skipWsp h).bind fun _ => (Extends.refl _).bind fun _ => extends_ite (hTurn before) (.refl _))

/-- With more fuel a grammar is read as before, only further. -/
theorem extends_rulelist (h : m ≤ n) (grammar : Bytes) :
    rulelist order b m grammar = rulelist order b n grammar ∨
      (rulelist order b m grammar).result = none ∧
        (rulelist order b m grammar).log <+: (rulelist order b n grammar).log :=
  extends_rulelistLoop h h false _

/-! ### Blanks -/

/-- Runs that return have met no blank. -/
abbrev Blankless {α : Type} (p : Scan α) : Prop := Quiet (· = Event.blank) p

/-- `tellg` sets `failbit` only where `peek` gives EOF anyway. -/
theorem tellg_peek (s : Istream) : s.tellg.2.peek.1 = s.peek.1 := by
  unfold Istream.tellg
  split_ifs with hGood
  · rfl
  · have hNot : Istream.good { s with fail := true } ≠ true := by simp [Istream.good]
    rw [Istream.peek, if_neg hNot, Istream.peek, if_neg hGood]

/-- An attempt whose body succeeds is its body. -/
theorem attempt_of_true {body : Scan Bool} {s t : Istream} {log : List Event}
    (h : body s.tellg.2 = ⟨some true, t, log⟩) : attempt body s = ⟨some true, t, log⟩ := by
  have hTell : Scan.tellg s = ⟨some s.tellg.1, s.tellg.2, []⟩ := rfl
  rw [attempt, bind_of_some hTell, bind_of_some h]
  exact congrArg (Outcome.mk _ _) (List.append_nil log)

/-- A blank is accepted and not read. -/
theorem cWsp_of_blank {s : Istream} (h : wsp s.peek.1 = true) : cWsp order s = ⟨some true, s, [.blank]⟩ := by
  have hGood : s.good = true := by
    by_contra hNot
    rw [Istream.peek, if_neg hNot] at h
    change wsp Istream.eofChar = true at h
    exact absurd h (by decide)
  obtain ⟨c, hPeek⟩ : ∃ c, s.peek = (c, s) := by
    cases hChar : s.text[s.pos]? with
    | none =>
        rw [Istream.peek, if_pos hGood, hChar] at h
        change wsp Istream.eofChar = true at h
        exact absurd h (by decide)
    | some c => exact ⟨c, by rw [Istream.peek, if_pos hGood, hChar]⟩
  have hRun : Scan.peek s = ⟨some c, s, []⟩ := by rw [Scan.peek, call, hPeek]
  rw [hPeek] at h
  refine attempt_of_true ?_
  rw [Istream.tellg, if_pos hGood, bind_of_some hRun, if_pos h]
  rfl

/-- What is left of `c_wsp` where there is no blank. -/
def newlineWsp (order : Order) : Scan Bool := attempt do
  let _ ← peek
  if ← cNl order then return wsp (← get)
  return false

/-- Away from a blank, `c_wsp` is only its second alternative. -/
theorem cWsp_of_not_blank {s : Istream} (h : wsp s.peek.1 = false) : cWsp order s = newlineWsp order s := by
  have hTell : Scan.tellg s = ⟨some s.tellg.1, s.tellg.2, []⟩ := rfl
  have hRun : Scan.peek s.tellg.2 = ⟨some s.peek.1, s.tellg.2.peek.2, []⟩ := by rw [← tellg_peek]; rfl
  have hBody : (do
      if wsp (← peek) then
        emit .blank
        return true
      if ← cNl order then return wsp (← get)
      return false : Scan Bool) s.tellg.2 = (do
        let _ ← peek
        if ← cNl order then return wsp (← get)
        return false : Scan Bool) s.tellg.2 := by
    rw [bind_of_some hRun, bind_of_some hRun, if_neg (by rw [h]; exact Bool.false_ne_true)]
  rw [cWsp, newlineWsp, attempt, attempt, bind_of_some hTell, bind_of_some hTell, bind_congr_at hBody]

/-- An attempt meets a blank only in its body. -/
theorem blankless_attempt (h : Blankless p) : Blankless (attempt p) :=
  (silent_call _).quiet.bind fun _ => h.bind fun _ => quiet_ite (silent_pure _).quiet
    ((silent_call _).bind fun _ => silent_pure _).quiet

/-- A choice meets a blank only in one of its functions. -/
theorem blankless_orElse (hp : Blankless p) (hq : Blankless q) : Blankless (orElse p q) :=
  hp.bind fun _ => quiet_ite (silent_pure _).quiet hq

theorem blankless_cNl : Blankless (cNl order) := (acts_cNl order).silent.quiet

/-- A loop over `c_wsp` never gets past a blank. -/
theorem skipWsp_of_blank {s : Istream} (h : wsp s.peek.1 = true) : (skipWsp order n s).result = none := by
  induction n with
  | zero => rfl
  | succ n ih =>
      have hPosition : position s = ⟨some s.pos, s, []⟩ := rfl
      have hTurn : emit (Event.turn s.pos s.pos) s = ⟨some ⟨⟩, s, [.turn s.pos s.pos]⟩ := rfl
      rw [skipWsp, bind_of_some hPosition, bind_of_some (cWsp_of_blank h), if_pos rfl, bind_of_some hPosition,
        bind_of_some hTurn]
      exact bind_result_none ih

/-- A call of `c_wsp` with a loop over `c_wsp` behind it. -/
theorem blankless_cWsp_bind {β : Type} {f : Bool → Scan β} (hf : ∀ a, Blankless (f a))
    (hStuck : ∀ s, wsp s.peek.1 = true → (f true s).result = none) : Blankless (cWsp order >>= f) := by
  have hNewline : Blankless (newlineWsp order >>= f) := by
    refine Quiet.bind (blankless_attempt ?_) hf
    exact (silent_call _).quiet.bind fun _ => blankless_cNl.bind fun _ =>
      quiet_ite ((silent_call _).bind fun _ => silent_pure _).quiet (silent_pure _).quiet
  intro s
  by_cases hBlank : wsp s.peek.1 = true
  · rw [bind_of_some (cWsp_of_blank hBlank)]
    exact fun hResult => absurd (hStuck s hBlank) hResult
  · rw [bind_congr_at (cWsp_of_not_blank (by simpa using hBlank))]
    exact hNewline s

/-- The turn that is logged is no blank. -/
theorem blankless_turn (before : Nat) (h : Blankless p) : Blankless (do emit (.turn before (← position)); p) :=
  (silent_call _).quiet.bind fun _ => (quiet_emit (by simp)).bind fun _ => h

/-- The loop over blanks returns only if no turn of it meets one. -/
theorem blankless_skipWsp : Blankless (skipWsp order n) := by
  induction n with
  | zero => exact silent_exhausted.quiet
  | succ n ih =>
      refine (silent_call _).quiet.bind fun before => blankless_cWsp_bind (fun _ => quiet_ite
        (blankless_turn _ (ih.bind fun _ => (silent_pure _).quiet)) (silent_pure _).quiet) fun s hBlank => ?_
      have hPosition : position s = ⟨some s.pos, s, []⟩ := rfl
      have hTurn : emit (Event.turn before s.pos) s = ⟨some ⟨⟩, s, [.turn before s.pos]⟩ := rfl
      rw [if_pos rfl, bind_of_some hPosition, bind_of_some hTurn]
      exact bind_result_none (skipWsp_of_blank hBlank)

theorem blankless_definedAs : Blankless (definedAs order n) :=
  blankless_attempt <| blankless_skipWsp.bind fun _ => (silent_call _).quiet.bind fun _ => (silent_call _).quiet.bind
    fun _ => quiet_ite ((silent_call _).quiet.bind fun _ => blankless_skipWsp.bind fun _ => (silent_pure _).quiet)
      (quiet_ite (blankless_skipWsp.bind fun _ => (silent_pure _).quiet) (silent_pure _).quiet)

/-- What is enclosed meets a blank only around or in its inner part. -/
theorem blankless_enclosed (h : Blankless inner) {first last : UInt8} :
    Blankless (enclosed order n inner first last) :=
  (silent_call _).quiet.bind fun _ => quiet_ite (silent_pure _).quiet (blankless_skipWsp.bind fun _ => h.bind fun _ =>
    quiet_ite (silent_pure _).quiet
      (blankless_skipWsp.bind fun _ => ((silent_call _).bind fun _ => silent_pure _).quiet))

theorem blankless_brackets (h : Blankless inner) (first last : UInt8) :
    Blankless (brackets order n inner first last) :=
  (silent_call _).quiet.bind fun _ => (blankless_enclosed h).bind fun _ =>
    (quiet_ite (silent_call _).quiet (silent_pure _).quiet).bind fun _ => (silent_pure _).quiet

theorem blankless_repetitionWith (h : Blankless inner) : Blankless (repetitionWith order n inner) :=
  acts_repeat.silent.quiet.bind fun _ => blankless_orElse acts_rulename.silent.quiet <|
    blankless_orElse (blankless_brackets h _ _) <|
    blankless_orElse (blankless_brackets h _ _) <|
    blankless_orElse acts_charVal.silent.quiet <|
    blankless_orElse acts_numVal.silent.quiet acts_proseVal.silent.quiet

/-- No turn of a loop over repetitions that returns has met a blank. -/
theorem blankless_concatenationLoop (h : Blankless inner) {k : Nat} {offset : Option Nat} :
    Blankless (concatenationLoop order n inner k offset b) := by
  induction k generalizing offset b with
  | zero => exact silent_exhausted.quiet
  | succ k ih =>
      refine (silent_call _).quiet.bind fun before => blankless_cWsp_bind (fun _ => quiet_ite
        (blankless_skipWsp.bind fun _ => (blankless_repetitionWith h).bind fun _ => quiet_ite
          ((silent_call _).quiet.bind fun _ => (silent_call _).quiet.bind fun _ => (quiet_emit (by simp)).bind
            fun _ => ih) (silent_pure _).quiet) (silent_pure _).quiet) fun s hBlank => ?_
      rw [if_pos rfl]
      exact bind_result_none (skipWsp_of_blank hBlank)

theorem blankless_when {c : Bool} {p : Scan Unit} (h : Blankless p) : Blankless (when c p) :=
  quiet_ite h (silent_pure _).quiet

theorem blankless_concatenationWith (h : Blankless inner) : Blankless (concatenationWith order n inner b) :=
  (silent_call _).quiet.bind fun _ => (blankless_repetitionWith h).bind fun _ =>
    (quiet_ite (silent_call _).quiet (silent_pure _).quiet).bind fun _ => (blankless_concatenationLoop h).bind fun _ =>
      (blankless_when (silent_call _).quiet).bind fun _ => (silent_pure _).quiet

/-- No turn of a loop over concatenations that returns has met a blank. -/
theorem blankless_alternationLoop (h : Blankless inner) {k : Nat} {offset : Option Nat} :
    Blankless (alternationLoop order n inner b k offset) := by
  induction k generalizing offset with
  | zero => exact silent_exhausted.quiet
  | succ k ih =>
      exact (silent_call _).quiet.bind fun _ => blankless_skipWsp.bind fun _ => (silent_call _).quiet.bind fun _ =>
        quiet_ite (silent_pure _).quiet (blankless_skipWsp.bind fun _ => (blankless_concatenationWith h).bind fun _ =>
          quiet_ite ((silent_call _).quiet.bind fun _ => (silent_call _).quiet.bind fun _ =>
            (quiet_emit (by simp)).bind fun _ => ih) (silent_pure _).quiet)

/-- A call of `alternation` that returns has met no blank. -/
theorem blankless_alternation : Blankless (alternation order b n) := by
  induction n with
  | zero => exact silent_exhausted.quiet
  | succ n ih =>
      exact (silent_call _).quiet.bind fun _ => (blankless_concatenationWith ih).bind fun _ =>
        (quiet_ite (silent_call _).quiet (silent_pure _).quiet).bind fun _ => (blankless_alternationLoop ih).bind
          fun _ => quiet_ite (silent_pure _).quiet ((silent_call _).quiet.bind fun _ => (silent_pure _).quiet)

/-- A line that is continued begins with a loop over `c_wsp`. -/
theorem ruleLoop_of_blank {s : Istream} {k : Nat} (h : wsp s.peek.1 = true) :
    (ruleLoop order b n k true s).result = none := by
  cases k with
  | zero => rfl
  | succ k =>
      have hPosition : position s = ⟨some s.pos, s, []⟩ := rfl
      refine (congrArg Outcome.result (bind_of_some hPosition)).trans ?_
      exact bind_result_none (bind_result_none (skipWsp_of_blank h))

/-- A loop over the lines of a rule that returns has met no blank. -/
theorem blankless_ruleLoop {k : Nat} {next : Bool} : Blankless (ruleLoop order b n k next) := by
  induction k generalizing next with
  | zero => exact silent_exhausted.quiet
  | succ k ih =>
      have hElements : Blankless (elements order b n) := blankless_alternation.bind fun _ => quiet_ite
        (blankless_skipWsp.bind fun _ => (silent_pure _).quiet) (silent_pure _).quiet
      refine (silent_call _).quiet.bind fun before => (blankless_when (blankless_skipWsp.bind fun _ =>
        (silent_pure _).quiet)).bind fun _ => hElements.bind fun _ => quiet_ite (silent_pure _).quiet
          (blankless_cNl.bind fun _ => quiet_ite (silent_pure _).quiet (blankless_cWsp_bind (fun _ => quiet_ite
            (blankless_turn before ih) (silent_pure _).quiet) fun s hBlank => ?_))
      have hPosition : position s = ⟨some s.pos, s, []⟩ := rfl
      have hTurn : emit (Event.turn before s.pos) s = ⟨some ⟨⟩, s, [.turn before s.pos]⟩ := rfl
      rw [if_pos rfl, bind_of_some hPosition, bind_of_some hTurn]
      exact ruleLoop_of_blank hBlank

/-- A run of the whole recogniser that returns has met no blank. -/
theorem blankless_rulelist {k : Nat} {success : Bool} : Blankless (rulelistLoop order b n k success) := by
  have hRule : Blankless (rule order b n) := blankless_attempt <| acts_rulename.silent.quiet.bind fun _ => quiet_ite
    (silent_pure _).quiet (blankless_definedAs.bind fun _ => quiet_ite (silent_pure _).quiet blankless_ruleLoop)
  induction k generalizing success with
  | zero => exact silent_exhausted.quiet
  | succ k ih =>
      exact (silent_call _).quiet.bind fun before => hRule.bind fun _ => quiet_ite (blankless_turn before ih)
        (blankless_skipWsp.bind fun _ => blankless_cNl.bind fun _ => quiet_ite (blankless_turn before ih)
          (silent_pure _).quiet)

end ImpactSockets.AbnfParser
