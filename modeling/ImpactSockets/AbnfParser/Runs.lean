import ImpactSockets.AbnfParser.Numerals
import ImpactSockets.AbnfParser.Recursive

/-! The rules by which runs over a stream are put together. -/
namespace ImpactSockets.AbnfParser

open Fuelled Istream

variable {α β : Type} {bad good : Event → Prop} {enough : Prop} {s t : Istream}

/-- A function without recursion does what its text function says. -/
theorem Acts.meets {p : Scan α} {F : Bytes → α × Bytes} (h : Acts p F) (hs : s.Ok) :
    Meets bad good enough p s fun a t => a = (F s.rest).1 ∧ t.rest = (F s.rest).2 ∧ s.Moves t := by
  obtain ⟨t, hRun, hReads⟩ := h.run s.rest s hs rfl
  exact meets_of_some hRun (by simp) fun _ => ⟨rfl, hReads.rest, hReads.moves (h.suffix _)⟩

theorem meets_get (hs : s.Ok) :
    Meets bad good enough Scan.get s fun c t => c = s.rest.headD eofChar ∧ t.rest = s.rest.tail ∧ s.Moves t :=
  acts_get.meets hs

theorem meets_peek (hs : s.Ok) :
    Meets bad good enough Scan.peek s fun c t => c = s.rest.headD eofChar ∧ t.rest = s.rest ∧ s.Moves t :=
  acts_peek.meets hs

theorem meets_tellg (hs : s.Ok) :
    Meets bad good enough Scan.tellg s fun offset t => offset = s.tellg.1 ∧ t.rest = s.rest ∧ s.Moves t :=
  meets_call ⟨rfl, (tellg_spec hs).rest, (tellg_spec hs).moves List.suffix_rfl⟩

/-- The stream goes back to where `tellg` was called. -/
theorem meets_restore (hs : s.Ok) (h : s.Moves t) :
    Meets bad good enough (Scan.restore s.tellg.1) t fun _ u => u.rest = s.rest ∧ s.Moves u :=
  have hSeek := seekg_spec hs h.reads h.suffix
  meets_call ⟨hSeek.rest, hSeek.moves List.suffix_rfl⟩

theorem meets_look {f : Istream → α} : Meets bad good enough (look f) s fun a t => a = f s ∧ s = t :=
  meets_call ⟨rfl, rfl⟩

/-- A function in the usual frame. -/
theorem meets_attempt {body : Scan Bool} {post : Istream → Prop} (hs : s.Ok)
    (h : ∀ t, t.rest = s.rest → s.Moves t →
      Meets bad good enough body t fun success u => s.Moves u ∧ (success = true → post u)) :
    Meets bad good enough (Scan.attempt body) s fun success u =>
      s.Moves u ∧ (success = true → post u) ∧ (success = false → u.rest = s.rest) := by
  refine (meets_tellg hs).bind ?_
  rintro _ t ⟨rfl, hRest, hMoves⟩
  refine (h t hRest hMoves).bind ?_
  rintro success u ⟨hMovesOn, hPost⟩
  refine meets_ite (fun hSuccess => meets_pure ⟨hMovesOn, fun _ => hPost hSuccess, by simp⟩) fun _ => ?_
  refine (meets_restore hs hMovesOn).bind ?_
  rintro _ v ⟨hBack, hMovesBack⟩
  exact meets_pure ⟨hMovesBack, by simp, fun _ => hBack⟩

end ImpactSockets.AbnfParser
