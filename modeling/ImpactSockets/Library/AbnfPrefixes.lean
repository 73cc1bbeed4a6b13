import Mathlib
import ImpactSockets.Library.Abnf

/-! Words with any text behind them: how a longer text begins. -/
namespace Abnf

open scoped Computability

universe u

variable {α : Type u} {L M : Language α} {r : List α}

/-- The texts that begin with a word of the language. -/
theorem mem_mul_top : r ∈ L * ⊤ ↔ ∃ w ∈ L, w <+: r := by
  rw [Language.mem_mul]
  constructor
  · rintro ⟨w, hw, x, -, rfl⟩
    exact ⟨w, hw, x, rfl⟩
  · rintro ⟨w, hw, x, rfl⟩
    exact ⟨w, hw, x, trivial, rfl⟩

/-- A text that begins with a word of a sequence begins with one of its first part. -/
theorem mul_mul_top_le : L * M * ⊤ ≤ L * ⊤ := by
  rw [mul_assoc]
  gcongr
  exact le_top

theorem le_mul_top : L ≤ L * ⊤ := fun w hw => mem_mul_top.mpr ⟨w, hw, List.prefix_rfl⟩

/-- Longer texts begin as their prefixes do. -/
theorem exists_prefix_of_le (h : L ≤ M * ⊤) (hWord : ∃ w ∈ L, w <+: r) : ∃ w ∈ M, w <+: r := by
  obtain ⟨w, hw, hText⟩ := hWord
  obtain ⟨v, hv, hPrefix⟩ := mem_mul_top.mp (h hw)
  exact ⟨v, hv, hPrefix.trans hText⟩

end Abnf
