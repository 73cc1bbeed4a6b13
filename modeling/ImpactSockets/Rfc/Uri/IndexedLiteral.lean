import ImpactSockets.Rfc.Uri.Indexed
import ImpactSockets.Rfc.Uri.LiteralTotal

/-! The indices of the parsers of IP literals stay inside the literal, and what
they return is what the parsers without indices do. -/
namespace ImpactSockets.Uri

open AbnfOps Ascii Total

/-- The run with indices does what the run without them does. -/
abbrev Mirrors {α : Type} (run : Indexed.Guarded α) (run' : Exec α) : Prop := Follows (· = ·) run run'

theorem mirrors_ok {α : Type} (a : α) : Mirrors (.ok a) (.ok a) := follows_ok rfl

/-- Two runs that mirror each other, in sequence. -/
theorem Mirrors.bind {α β : Type} {run : Indexed.Guarded α} {run' : Exec α} {next : α → Indexed.Guarded β}
    {next' : α → Exec β} (h : Mirrors run run') (hNext : ∀ a, run' = .ok a → Mirrors (next a) (next' a)) :
    Mirrors (run >>= next) (run' >>= next') := by
  apply Follows.bind h
  rintro a _ hRun rfl
  exact hNext a hRun

/-- A return in front of other statements. -/
theorem mirrors_unless {α : Type} {condition : Prop} [Decidable condition] {a : α} {run : Indexed.Guarded α}
    {run' : Exec α} (h : ¬condition → Mirrors run run') :
    Mirrors (if condition then .ok a else run) (if condition then .ok a else run') :=
  follows_ite (fun _ => mirrors_ok a) h

/-! ### Accesses -/

theorem mirrors_read (data : Bytes) (i : Nat) : Mirrors (Indexed.read data i) (readAt data i) := by
  unfold Indexed.read readAt
  by_cases h : i < data.length
  · rw [dif_pos h, List.getElem?_eq_getElem h]
    exact mirrors_ok _
  · rw [List.getElem?_eq_none (Nat.le_of_not_lt h)]
    exact follows_error

theorem mirrors_cut (data : Bytes) (first last : Nat) : Mirrors (Indexed.cut data first last) (cut data first last) := by
  unfold Indexed.cut cut
  by_cases h : first ≤ last ∧ last ≤ data.length
  · rw [if_pos h, if_pos h]
    exact mirrors_ok _
  · rw [if_neg h, if_neg h]
    exact follows_error

theorem minus_eq {i k : Nat} (h : k ≤ i) : Indexed.minus i k = .ok (i - k) := if_pos h

/-- A character that is compared. -/
theorem readsBehind_eq {data : Bytes} {i k : Nat} {d : UInt8} (hk : k ≤ i) (hRead : readAt data (i - k) = .ok d)
    (c : UInt8) : Indexed.readsBehind data i k c = .ok (d == c) := by
  obtain ⟨_, hSame, rfl⟩ := mirrors_read data (i - k) d hRead
  rw [Indexed.readsBehind, minus_eq hk]
  change Indexed.read data (i - k) >>= _ = _
  rw [hSame]
  rfl

/-- A test on a flag and a character. -/
theorem mirrors_test {α : Type} {data : Bytes} {i k : Nat} {first : Bool} {c : UInt8} {next : Bool → Indexed.Guarded α}
    {next' : UInt8 → Exec α} (hk : k ≤ i)
    (hNext : ∀ d, readAt data (i - k) = .ok d → Mirrors (next (first && d == c)) (next' d)) :
    Mirrors (Indexed.both first (Indexed.readsBehind data i k c) >>= next) (readAt data (i - k) >>= next') := by
  apply follows_ahead
  intro d hRead
  rw [readsBehind_eq hk hRead]
  have hBoth : Indexed.both first (.ok (d == c)) = .ok (first && d == c) := by cases first <;> rfl
  rw [hBoth]
  exact hNext d hRead

/-! ### Loops -/

theorem read_behind (before rest : Bytes) (c : UInt8) : Indexed.read (before ++ c :: rest) before.length = .ok c := by
  obtain ⟨_, hSame, rfl⟩ := mirrors_read _ _ _ (readAt_place before rest c)
  exact hSame

/-- A loop over the indices of a text, by what it does behind each place in it. -/
theorem behind_drop {property : Bytes → Nat → Bytes → Prop} (h : ∀ before rest, property (before ++ rest) before.length rest)
    {data : Bytes} {i : Nat} (hi : i ≤ data.length) : property data i (data.drop i) := by
  have hBehind := h (data.take i) (data.drop i)
  rwa [List.take_append_drop, List.length_take, Nat.min_eq_left hi] at hBehind

/-- A loop that also stops at an index behind the text. -/
theorem anywhere_drop {property : Bytes → Nat → Bytes → Prop}
    (h : ∀ before rest, property (before ++ rest) before.length rest)
    (hPast : ∀ data i, data.length < i → property data i []) (data : Bytes) (i : Nat) : property data i (data.drop i) := by
  by_cases hi : i ≤ data.length
  · exact behind_drop h hi
  · rw [List.drop_eq_nil_of_le (by omega)]
    exact hPast data i (by omega)

theorem scanWhile_behind (known : UInt8 → Bool) (before rest : Bytes) :
    Indexed.scanWhile known (before ++ rest) before.length = .ok (scanWhile known rest before.length) := by
  induction rest generalizing before with
  | nil => rw [Indexed.scanWhile, dif_neg (by simp), scanWhile]
  | cons c rest ih =>
      have hNext := ih (before ++ [c])
      rw [List.append_assoc, List.singleton_append, List.length_append, List.length_singleton] at hNext
      rw [Indexed.scanWhile, dif_pos (by simp), read_behind, scanWhile]
      change (if known c then _ else _) = _
      split_ifs
      · exact hNext
      · rfl

/-- The scan with an index is the scan of what is left. -/
theorem scanWhile_eq (known : UInt8 → Bool) (data : Bytes) (i : Nat) :
    Indexed.scanWhile known data i = .ok (scanWhile known (data.drop i) i) := by
  refine @anywhere_drop (fun data i rest => Indexed.scanWhile known data i = .ok (scanWhile known rest i))
    (scanWhile_behind known) ?_ data i
  intro data i hPast
  rw [Indexed.scanWhile, dif_neg (by omega), scanWhile]

/-- The test behind a loop that is to end at the end of the text. -/
theorem scanWhile_inside (known : UInt8 → Bool) (rest : Bytes) (i : Nat) :
    scanWhile known rest i < i + rest.length ↔ rest.all known = false := by
  induction rest generalizing i with
  | nil => simp [scanWhile]
  | cons c rest ih =>
      have hNext := ih (i + 1)
      rw [scanWhile, List.length_cons, List.all_cons]
      cases hc : known c with
      | true =>
          rw [Bool.true_and, ← hNext]
          simp only [if_true]
          omega
      | false => simp

/-! ### IPvFuture -/

theorem skipHexdigs_behind {before rest : Bytes} (hLength : 2 ≤ (before ++ rest).length) :
    Mirrors (Indexed.skipHexdigs (before ++ rest) before.length) (skipHexdigs rest before.length) := by
  induction rest generalizing before with
  | nil => exact follows_error
  | cons c rest ih =>
      have hNext := @ih (before ++ [c])
      have hIndex : (before ++ [c]).length = before.length + 1 := by simp
      rw [List.append_assoc, List.singleton_append, hIndex] at hNext
      rw [Indexed.skipHexdigs, dif_pos (by simp), read_behind, skipHexdigs]
      apply mirrors_unless
      intro _
      rw [minus_eq hLength]
      have hMore : before.length < (before ++ c :: rest).length - 2 ↔ 1 < rest.length := by
        rw [List.length_append, List.length_cons]
        omega
      change Mirrors (if _ then _ else _) _
      simp only [hMore]
      exact follows_ite (fun _ => hNext hLength) fun _ => mirrors_ok _

theorem mirrors_skipHexdigs {data : Bytes} {i : Nat} (h : i ≤ data.length) (hLength : 2 ≤ data.length) :
    Mirrors (Indexed.skipHexdigs data i) (skipHexdigs (data.drop i) i) :=
  @behind_drop (fun data i rest => 2 ≤ data.length → Mirrors (Indexed.skipHexdigs data i) (skipHexdigs rest i))
    (fun _ _ => skipHexdigs_behind) data i h hLength

theorem mirrors_parseIpvFuture (data : Bytes) : Mirrors (Indexed.parseIpvFuture data) (parseIpvFuture data) := by
  unfold Indexed.parseIpvFuture parseIpvFuture
  apply mirrors_unless
  intro hShort
  apply (mirrors_read data 0).bind
  intro v _
  apply mirrors_unless
  intro _
  apply (mirrors_read data 1).bind
  intro d _
  apply mirrors_unless
  intro _
  apply (mirrors_skipHexdigs (by omega) (by omega)).bind
  intro i hSkip
  apply (mirrors_read data i).bind
  intro e _
  apply mirrors_unless
  intro _
  apply (mirrors_read data (i + 1)).bind
  intro f _
  apply mirrors_unless
  intro _
  have hLength : (data.drop 2).length = data.length - 2 := List.length_drop
  have hEnd := (skipHexdigs_ends (by omega) 2).of_eq hSkip
  have hInside := scanWhile_inside ipvFutureChar (data.drop (i + 2)) (i + 2)
  rw [List.length_drop, Nat.add_sub_cancel' (by omega)] at hInside
  rw [scanWhile_eq]
  change Mirrors (if _ then _ else _) _
  simp only [hInside, Bool.not_eq_true']
  exact mirrors_unless fun _ => mirrors_ok _

/-! ### IPv6 addresses -/

/-- The loop over the groups, with its index arithmetic and without. -/
theorem mirrors_hexLoop (data : Bytes) (i : Nat) (st : HexState) :
    Mirrors (Indexed.hexLoop data i st) (hexLoop data i st) := by
  induction i generalizing st with
  | zero =>
      rw [Indexed.hexLoop, hexLoop]
      apply (mirrors_read data 0).bind
      intro c _
      cases hexStep c true st <;> exact mirrors_ok _
  | succ i ih =>
      rw [Indexed.hexLoop, hexLoop]
      apply (mirrors_read data (i + 1)).bind
      intro c _
      cases hexStep c false st with
      | next next => exact ih next
      | leave => exact mirrors_ok _
      | fail => exact mirrors_ok _

/-- The loop over the octets, with its index arithmetic and without. -/
theorem mirrors_decLoop (data : Bytes) (i : Nat) (st : DecState) :
    Mirrors (Indexed.decLoop data i st) (decLoop data i st) := by
  induction i generalizing st with
  | zero => exact mirrors_ok _
  | succ i ih =>
      rw [Indexed.decLoop, decLoop]
      apply follows_ite
      · intro _
        apply (mirrors_read data (i + 1)).bind
        intro c _
        cases decStep c st with
        | next next => exact ih next
        | leave => exact mirrors_ok _
        | fail => exact mirrors_ok _
      · exact fun _ => mirrors_ok _

theorem mirrors_parseHex (data : Bytes) (currentIdx : Nat) (havePlaceholder haveIpv4 : Bool) :
    Mirrors (Indexed.parseHex data currentIdx havePlaceholder haveIpv4)
      (parseHex data currentIdx havePlaceholder haveIpv4) := by
  unfold Indexed.parseHex parseHex
  apply (mirrors_hexLoop data currentIdx _).bind
  intro found _
  rcases found with _ | ⟨i, st⟩
  · exact mirrors_ok _
  apply mirrors_unless
  intro _
  apply mirrors_test (Nat.zero_le i)
  intro c _
  apply mirrors_unless
  intro _
  apply follows_ite
  · exact fun _ => mirrors_unless fun _ => mirrors_unless fun _ => mirrors_ok _
  · exact fun _ => mirrors_unless fun _ => mirrors_unless fun _ => mirrors_ok _

/-- The loop at the label `dec` leaves two characters in front of the octets,
so that the index can be decreased twice. -/
theorem mirrors_parseDec {data : Bytes} {currentIdx : Nat} (hPositive : 0 < currentIdx) (h : currentIdx < data.length) :
    Mirrors (Indexed.parseDec data currentIdx) (parseDec data currentIdx) := by
  unfold Indexed.parseDec parseDec
  apply (mirrors_decLoop data currentIdx _).bind
  intro found hLoop
  rcases found with _ | ⟨i, st⟩
  · exact mirrors_ok _
  have hFirst : 0 < i := ((decLoop_ends hPositive h _).of_eq hLoop _ rfl).1
  apply mirrors_unless
  intro _
  apply (mirrors_read data i).bind
  intro c _
  apply follows_ite
  · intro _
    rw [minus_eq hFirst]
    apply (mirrors_read data (i - 1)).bind
    intro d _
    apply follows_ite
    · intro _
      apply mirrors_unless
      intro hMore
      rw [minus_eq (Nat.pos_of_ne_zero hMore)]
      exact mirrors_parseHex data (i - 2) true true
    · exact fun _ => mirrors_parseHex data (i - 1) false true
  · exact fun _ => mirrors_ok _

theorem mirrors_parseIpv6Address (data : Bytes) : Mirrors (Indexed.parseIpv6Address data) (parseIpv6Address data) := by
  unfold Indexed.parseIpv6Address parseIpv6Address
  apply mirrors_unless
  intro hShort
  have hLast : Indexed.minus data.length 1 = .ok (data.length - 1) := minus_eq (by omega)
  rw [hLast]
  apply (mirrors_read data (data.length - 1)).bind
  intro last _
  apply mirrors_test (by omega)
  intro previous hPrevious
  apply follows_ite
  · intro _
    apply mirrors_unless
    intro hMore
    rw [minus_eq (by omega)]
    exact mirrors_parseHex data (data.length - 1 - 2) true false
  · intro _
    have hHex := mirrors_parseHex data (data.length - 1) false false
    apply follows_ite
    · intro _
      apply follows_ite
      · exact fun _ => mirrors_unless fun _ => hHex
      · intro hLong
        have hDec : Mirrors (Indexed.parseDec data (data.length - 1)) (parseDec data (data.length - 1)) :=
          mirrors_parseDec (by omega) (by omega)
        apply follows_ahead
        intro second hSecond
        apply follows_ahead
        intro third hThird
        rw [readsBehind_eq (by omega) hPrevious, readsBehind_eq (by omega) hSecond, readsBehind_eq (by omega) hThird]
        cases previous == dot with
        | true => exact hDec
        | false =>
            cases second == dot with
            | true => exact hDec
            | false =>
                cases third == dot with
                | true => exact hDec
                | false => exact hHex
    · exact fun _ => mirrors_ok _

/-- The literal is judged alike, with the index arithmetic and without. -/
theorem mirrors_parseIpLiteral (data : Bytes) : Mirrors (Indexed.parseIpLiteral data) (parseIpLiteral data) := by
  unfold Indexed.parseIpLiteral parseIpLiteral
  apply mirrors_unless
  intro hShort
  apply (mirrors_read data 0).bind
  intro first _
  apply mirrors_test (by omega)
  intro last _
  apply mirrors_unless
  intro _
  have hCount : 1 + (data.length - 2) = data.length - 1 := by omega
  rw [minus_eq (by omega)]
  change Mirrors (Indexed.cut data 1 (1 + (data.length - 2)) >>= _) _
  rw [hCount]
  apply (mirrors_cut data 1 (data.length - 1)).bind
  intro inner _
  apply (mirrors_read inner 0).bind
  intro c _
  exact follows_ite (fun _ => mirrors_parseIpvFuture inner) fun _ => mirrors_parseIpv6Address inner

end ImpactSockets.Uri
