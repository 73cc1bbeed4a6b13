import ImpactSockets.AbnfParser.Recognisers

/-! What the functions without recursion make of the text that is left. -/
namespace ImpactSockets.AbnfParser

open AbnfOps Fuelled Istream

variable {α β : Type}

/-- The program reads a text down to what it leaves of it, and logs nothing. -/
def Yields (p : Scan α) (r : Bytes) (a : α) (left : Bytes) : Prop :=
  ∀ s : Istream, s.Ok → s.rest = r → ∃ t, p s = ⟨some a, t, []⟩ ∧ s.Reads t left

/-- Two programs in sequence: the second goes on where the first has stopped. -/
theorem Yields.bind {p : Scan α} {f : α → Scan β} {r left last : Bytes} {a : α} {b : β} (hp : Yields p r a left)
    (hf : Yields (f a) left b last) : Yields (p >>= f) r b last := by
  intro s hs hRest
  obtain ⟨t, hRun, hReads⟩ := hp s hs hRest
  obtain ⟨u, hNext, hReadsNext⟩ := hf t hReads.ok hReads.rest
  exact ⟨u, by rw [bind_of_some hRun, hNext, List.append_nil], hReads.trans hReadsNext⟩

/-- The program maps what is left of the text as the function says, and logs nothing. -/
structure Acts (p : Scan α) (F : Bytes → α × Bytes) : Prop where
  run : ∀ r, Yields p r (F r).1 (F r).2
  suffix : ∀ r, (F r).2 <:+ r
  silent : Silent p

theorem yields_pure (a : α) (r : Bytes) : Yields (pure a) r a r := by
  rintro s hs rfl
  exact ⟨s, rfl, Reads.refl hs⟩

theorem yields_ite {c : Prop} [Decidable c] {p q : Scan α} {r : Bytes} {x y : α × Bytes} (hp : Yields p r x.1 x.2)
    (hq : Yields q r y.1 y.2) : Yields (if c then p else q) r (if c then x else y).1 (if c then x else y).2 := by
  split_ifs
  · exact hp
  · exact hq

/-- An operation of the stream, by what it does to a stream with this much left. -/
theorem yields_call (f : Istream → α × Istream) {r left : Bytes} {a : α}
    (h : ∀ s : Istream, s.Ok → s.rest = r → (f s).1 = a ∧ s.Reads (f s).2 left) : Yields (call f) r a left := by
  intro s hs hRest
  obtain ⟨rfl, hReads⟩ := h s hs hRest
  exact ⟨_, rfl, hReads⟩

theorem acts_pure (a : α) : Acts (pure a) fun r => (a, r) where
  run := yields_pure a
  suffix := fun _ => List.suffix_rfl
  silent := silent_pure a

/-- `get` takes one character, or gives EOF. -/
theorem acts_get : Acts Scan.get fun r => (r.headD eofChar, r.tail) where
  run := fun _ => yields_call _ fun _ hs hRest => hRest ▸ get_spec hs
  suffix := List.tail_suffix
  silent := silent_call _

/-- `peek` takes none. -/
theorem acts_peek : Acts Scan.peek fun r => (r.headD eofChar, r) where
  run := fun _ => yields_call _ fun _ hs hRest => hRest ▸ peek_spec hs
  suffix := fun _ => List.suffix_rfl
  silent := silent_call _

/-- The loop stops at EOF because its predicate fails there. -/
theorem acts_skipWhile {p : UInt8 → Bool} (hp : p eofChar = false) :
    Acts (Scan.skipWhile p) fun r => ((), r.dropWhile p) where
  run := fun _ => yields_call _ fun _ hs hRest => hRest ▸ ⟨rfl, skipWhile_spec hs hp⟩
  suffix := fun _ => List.dropWhile_suffix p
  silent := silent_call _

/-- The loop takes one character more than it skips. -/
theorem acts_getWhile {p : UInt8 → Bool} (hp : p eofChar = false) :
    Acts (Scan.getWhile p) fun r => ((r.dropWhile p).headD eofChar, (r.dropWhile p).tail) where
  run := fun _ => yields_call _ fun _ hs hRest => hRest ▸ getWhile_spec hs hp
  suffix := fun _ => (List.tail_suffix _).trans (List.dropWhile_suffix p)
  silent := silent_call _

/-- Two programs in sequence, as functions of the text. -/
theorem Acts.bind {p : Scan α} {f : α → Scan β} {F : Bytes → α × Bytes} {G : α → Bytes → β × Bytes}
    (hp : Acts p F) (hf : ∀ a, Acts (f a) (G a)) : Acts (p >>= f) fun r => G (F r).1 (F r).2 where
  run := fun r => (hp.run r).bind ((hf _).run _)
  suffix := fun r => ((hf _).suffix _).trans (hp.suffix r)
  silent := hp.silent.bind fun a => (hf a).silent

theorem acts_ite {c : Prop} [Decidable c] {p q : Scan α} {F G : Bytes → α × Bytes} (hp : Acts p F) (hq : Acts q G) :
    Acts (if c then p else q) fun r => if c then F r else G r where
  run := fun r => yields_ite (hp.run r) (hq.run r)
  suffix := fun r => by
    split_ifs
    · exact hp.suffix r
    · exact hq.suffix r
  silent := silent_ite hp.silent hq.silent

theorem Acts.congr {p : Scan α} {F G : Bytes → α × Bytes} (hp : Acts p F) (h : ∀ r, F r = G r) : Acts p G :=
  funext h ▸ hp

/-- The attempt itself logs nothing. -/
theorem silent_attempt {body : Scan Bool} (h : Silent body) : Silent (Scan.attempt body) :=
  (silent_call _).bind fun _ => h.bind fun _ =>
    silent_ite (silent_pure _) ((silent_call _).bind fun _ => silent_pure _)

/-- What is left after a failure is what was left before. -/
def attempted (F : Bytes → Bool × Bytes) (r : Bytes) : Bool × Bytes := if (F r).1 then F r else (false, r)

/-- The second function has its turn where the first one has left the text. -/
def either (F G : Bytes → Bool × Bytes) (r : Bytes) : Bool × Bytes := if (F r).1 then F r else G (F r).2

/-- An attempt acts as its body does, and puts the text back after a failure. -/
theorem Acts.attempt {body : Scan Bool} {F : Bytes → Bool × Bytes} (hBody : Acts body F) :
    Acts (Scan.attempt body) (attempted F) where
  run := by
    rintro _ s hs rfl
    have hTell := tellg_spec hs
    obtain ⟨t, hRun, hReads⟩ := hBody.run _ s.tellg.2 hTell.ok hTell.rest
    have hStart : Scan.tellg s = ⟨some s.tellg.1, s.tellg.2, []⟩ := rfl
    have hEnd := hBody.suffix s.rest
    rw [Scan.attempt, bind_of_some hStart, bind_of_some hRun, attempted]
    generalize F s.rest = result at hReads hEnd ⊢
    rcases result with ⟨_ | _, r⟩
    · exact ⟨_, rfl, seekg_spec hs (hTell.trans hReads) hEnd⟩
    · exact ⟨t, rfl, hTell.trans hReads⟩
  suffix := fun r => by
    unfold attempted
    split_ifs
    · exact hBody.suffix r
    · exact List.suffix_rfl
  silent := silent_attempt hBody.silent

/-- A choice acts as the first function and, where that fails, as the second behind it. -/
theorem Acts.orElse {p q : Scan Bool} {F G : Bytes → Bool × Bytes} (hp : Acts p F) (hq : Acts q G) :
    Acts (Scan.orElse p q) (either F G) := by
  refine (hp.bind fun _ => acts_ite (acts_pure true) hq).congr fun r => ?_
  unfold either
  rcases F r with ⟨_ | _, r'⟩ <;> rfl

/-- A success reads something. -/
def Eats (F : Bytes → Bool × Bytes) : Prop := ∀ r, (F r).1 = true → (F r).2.length < r.length

/-- An attempt that succeeds reads what its body reads. -/
theorem Eats.attempted {F : Bytes → Bool × Bytes} (h : Eats F) : Eats (attempted F) := by
  intro r hTrue
  unfold AbnfParser.attempted at hTrue ⊢
  split_ifs at hTrue ⊢ with hFirst
  exact h r hFirst

/-- A choice reads something if each of its functions does. -/
theorem Eats.either {F G : Bytes → Bool × Bytes} (hF : Eats F) (hG : Eats G) (hSuffix : ∀ r, (F r).2 <:+ r) :
    Eats (either F G) := by
  intro r hTrue
  unfold AbnfParser.either at hTrue ⊢
  split_ifs at hTrue ⊢ with hFirst
  · exact hF r hFirst
  · exact (hG _ hTrue).trans_le (hSuffix r).length_le

/-- It is enough that the first character is read before anything else, and is not the end. -/
theorem eats_of_head {F : Bytes → Bool × Bytes} (hNil : (F []).1 = false)
    (hTail : ∀ r, (F r).2 <:+ r.tail ∨ (F r).1 = false) : Eats F := by
  intro r hTrue
  cases r with
  | nil =>
      rw [hNil] at hTrue
      cases hTrue
  | cons c r =>
      rcases hTail (c :: r) with hSuffix | hFalse
      · exact Nat.lt_succ_of_le hSuffix.length_le
      · rw [hFalse] at hTrue
        cases hTrue

/-! ### The functions -/

def commentText : Bytes → Bool × Bytes := attempted fun r =>
  if r.headD eofChar ≠ 0x3B then (false, r.tail)
  else
    let behind := r.tail.dropWhile fun c => wsp c || vchar c
    (crlf (behind.headD eofChar) (behind.tail.headD eofChar), behind.tail.tail)

/-- `comment` as a function of the text. -/
theorem acts_comment : Acts comment commentText := by
  refine Acts.attempt ((acts_get.bind fun c => acts_ite (acts_pure false) ((acts_getWhile (by decide)).bind fun a =>
    acts_get.bind fun b => acts_pure (crlf a b))).congr fun r => ?_)
  split_ifs <;> rfl

/-- A comment has at least its semicolon. -/
theorem eats_comment : Eats commentText := by
  refine Eats.attempted (eats_of_head rfl fun r => .inl ?_)
  split_ifs
  · exact List.suffix_rfl
  · exact (List.tail_suffix _).trans ((List.tail_suffix _).trans (List.dropWhile_suffix _))

def newlineText (order : Order) (r : Bytes) : Bool × Bytes :=
  match order with
  | .leftToRight => (crlf (r.headD eofChar) (r.tail.headD eofChar), r.tail.tail)
  | .rightToLeft => (crlf (r.tail.headD eofChar) (r.headD eofChar), r.tail.tail)

def cNlText (order : Order) : Bytes → Bool × Bytes := attempted (either commentText (newlineText order))

/-- `c_nl` as a function of the text. -/
theorem acts_cNl (order : Order) : Acts (cNl order) (cNlText order) := by
  cases order
  · refine Acts.attempt ((acts_comment.bind fun _ => acts_ite (acts_pure true) (acts_get.bind fun first =>
      acts_get.bind fun second => acts_pure (crlf first second))).congr fun r => ?_)
    unfold either newlineText
    rcases commentText r with ⟨_ | _, r'⟩ <;> rfl
  · refine Acts.attempt ((acts_comment.bind fun _ => acts_ite (acts_pure true) (acts_get.bind fun first =>
      acts_get.bind fun second => acts_pure (crlf second first))).congr fun r => ?_)
    unfold either newlineText
    rcases commentText r with ⟨_ | _, r'⟩ <;> rfl

/-- A comment or a newline is not empty. -/
theorem eats_cNl (order : Order) : Eats (cNlText order) := by
  refine Eats.attempted (eats_comment.either ?_ acts_comment.suffix)
  cases order
  · exact eats_of_head rfl fun r => .inl (List.tail_suffix _)
  · exact eats_of_head rfl fun r => .inl (List.tail_suffix _)

def rulenameText (r : Bytes) : Bool × Bytes :=
  if alpha (r.headD eofChar) then (true, r.tail.dropWhile rulenameChar) else (false, r)

theorem acts_rulename : Acts rulename rulenameText :=
  (acts_peek.bind fun _ => acts_ite (acts_get.bind fun _ => (acts_skipWhile (by decide)).bind fun _ => acts_pure true)
    (acts_pure false)).congr fun _ => rfl

theorem eats_rulename : Eats rulenameText := by
  refine eats_of_head rfl fun r => ?_
  unfold rulenameText
  split_ifs
  · exact .inl (List.dropWhile_suffix _)
  · exact .inr rfl

def delimitedText (first last : UInt8) (inside : UInt8 → Bool) : Bytes → Bool × Bytes := attempted fun r =>
  if r.headD eofChar ≠ first then (false, r.tail)
  else ((r.tail.dropWhile inside).headD eofChar == last, (r.tail.dropWhile inside).tail)

/-- A delimited text has at least its first delimiter. -/
theorem eats_delimited {first last : UInt8} {inside : UInt8 → Bool} (h : eofChar ≠ first) :
    Eats (delimitedText first last inside) := by
  refine Eats.attempted (eats_of_head (congrArg Prod.fst (if_pos h)) fun r => .inl ?_)
  split_ifs
  · exact List.suffix_rfl
  · exact (List.tail_suffix _).trans (List.dropWhile_suffix _)

theorem acts_charVal : Acts charVal (delimitedText 0x22 0x22 quotedChar) := by
  refine Acts.attempt ((acts_get.bind fun c => acts_ite (acts_pure false) ((acts_skipWhile (by decide)).bind fun _ =>
    acts_get.bind fun c => acts_pure (dquote c))).congr fun r => ?_)
  simp only [dquote]
  split_ifs <;> simp_all

theorem acts_proseVal : Acts proseVal (delimitedText 0x3C 0x3E proseChar) := by
  refine Acts.attempt ((acts_get.bind fun c => acts_ite (acts_pure false) ((acts_skipWhile (by decide)).bind fun _ =>
    acts_get.bind fun c => acts_pure (c == 0x3E))).congr fun r => ?_)
  split_ifs <;> rfl

def repeatText : Bytes → Bool × Bytes := attempted fun r =>
  if r.headD eofChar = 0x2A then (true, r.tail.dropWhile digit)
  else if !digit (r.headD eofChar) then (false, r.tail)
  else if (r.tail.dropWhile digit).headD eofChar = 0x2A then (true, (r.tail.dropWhile digit).tail.dropWhile digit)
  else (true, r.tail.dropWhile digit)

/-- `repeat` as a function of the text; it may read nothing. -/
theorem acts_repeat : Acts repeat_ repeatText := by
  have hDigits : Acts (Scan.skipWhile digit) fun r => ((), r.dropWhile digit) := acts_skipWhile (by decide)
  refine Acts.attempt ((acts_get.bind fun c => acts_ite (hDigits.bind fun _ => acts_pure true)
    (acts_ite (acts_pure false) (hDigits.bind fun _ => acts_peek.bind fun c =>
      acts_ite (acts_get.bind fun _ => hDigits.bind fun _ => acts_pure true) (acts_pure true)))).congr fun r => ?_)
  split_ifs <;> rfl

end ImpactSockets.AbnfParser
