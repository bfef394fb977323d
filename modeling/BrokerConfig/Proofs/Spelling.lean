import Mathlib.Data.List.TakeWhile
import BrokerConfig.Json.Printer
import BrokerConfig.Json.Token

namespace BrokerConfig.Json

def pointsOf (s : String) : List Nat := s.toList.map Char.toNat

theorem not_surrogate (c : Char) :
    isHighSurrogate c.toNat = false ∧ isLowSurrogate c.toNat = false := by
  have hvalid : c.toNat < 0xD800 ∨ 0xDFFF < c.toNat ∧ c.toNat < 0x110000 := c.valid
  simp only [isHighSurrogate, isLowSurrogate, Bool.and_eq_false_iff, decide_eq_false_iff_not]
  omega

theorem charsOfPoints?_map (chars : List Char) :
    charsOfPoints? (chars.map Char.toNat) = some chars := by
  induction chars with
  | nil => rfl
  | cons c rest ih =>
    obtain ⟨hhigh, hlow⟩ := not_surrogate c
    cases rest with
    | nil => simp [charsOfPoints?, charsOfPoints?.single?, hhigh, hlow]
    | cons d rest =>
      rw [List.map_cons] at ih
      simp [charsOfPoints?, charsOfPoints?.single?, hhigh, hlow, ih]

theorem textOfPoints?_pointsOf (s : String) : textOfPoints? (pointsOf s) = some s := by
  rw [textOfPoints?, pointsOf, charsOfPoints?_map, Option.map_some, String.ofList_toList]

namespace Literal

theorem head?_toDigits {m : Nat} (h : 0 < m) : (Nat.toDigits 10 m).head? ≠ some '0' := by
  induction m using Nat.strongRecOn with
  | _ m ih =>
    by_cases hm : m < 10
    · have hdigit : ∀ n < 10, 0 < n → Nat.digitChar n ≠ '0' := by decide
      simpa [Nat.toDigits_of_lt_base hm] using hdigit m hm h
    · have hhead : (Nat.toDigits 10 m).head? = (Nat.toDigits 10 (m / 10)).head? := by
        rw [Nat.toDigits_eq_if (by decide), if_neg hm]
        rw [List.head?_append, Option.or_of_isSome]
        simp
      rw [hhead]
      exact ih (m / 10) (by omega) (by omega)

theorem unsigned?_toDigits (negative : Bool) (m : Nat) :
    unsigned? negative (Nat.toDigits 10 m) = some (.whole negative m) := by
  have hdigits : ∀ c ∈ Nat.toDigits 10 m, c.isDigit = true :=
    fun _ hc => Nat.isDigit_of_mem_toDigits (by decide) (by decide) hc
  have htake := List.takeWhile_eq_self_iff.2 hdigits
  have hdrop := List.dropWhile_eq_nil_iff.2 hdigits
  have hvalue : natOfDigits (Nat.toDigits 10 m) = m :=
    Nat.ofDigitChars_toDigits (by decide) (by decide)
  have hzero : ¬((Nat.toDigits 10 m).head? = some '0' ∧ (Nat.toDigits 10 m).length ≠ 1) := by
    rintro ⟨hhead, hlength⟩
    rcases Nat.eq_zero_or_pos m with rfl | hm
    · exact hlength rfl
    · exact head?_toDigits hm hhead
  simp only [unsigned?, htake, hdrop, hvalue, Nat.toDigits_ne_nil, hzero, or_self, if_false]

theorem ofChars?_integer (n : Int) :
    ofChars? (Number.integer n).chars = some (.whole (n < 0) n.natAbs) := by
  by_cases hn : n < 0
  · simp [Number.chars, hn, ofChars?, unsigned?_toDigits]
  · rw [Number.chars]
    simp only [hn, if_false, decide_false]
    obtain ⟨c, rest, hc⟩ :=
      List.exists_cons_of_ne_nil (Nat.toDigits_ne_nil (n := n.natAbs) (b := 10))
    have hdigit : c.isDigit = true :=
      Nat.isDigit_of_mem_toDigits (b := 10) (n := n.natAbs) (by decide) (by decide) (by simp [hc])
    have hsign : c ≠ '-' := by
      rintro rfl
      contradiction
    rw [← unsigned?_toDigits, hc]
    unfold ofChars?
    split
    · simp_all
    · rfl

end Literal

theorem Number.ofLiteral?_whole {n : Int} (h : InRange n) :
    ofLiteral? (.whole (n < 0) n.natAbs) = some (.integer n) := by
  have hvalue : (if decide (n < 0) = true then -(n.natAbs : Int) else n.natAbs) = n := by
    by_cases hn : n < 0
    · rw [decide_eq_true hn, if_pos rfl]
      omega
    · rw [decide_eq_false hn, if_neg Bool.false_ne_true]
      omega
  have hzero : ¬(decide (n < 0) = true ∧ n.natAbs = 0) := by
    rw [decide_eq_true_eq]
    omega
  simp only [ofLiteral?]
  rw [hvalue, if_pos ⟨h, hzero⟩]

namespace Token

def scanFrom (found : List Token) (rest : List Char) : Option (List Token) :=
  (rest.foldlM Scan.step ⟨found, .between⟩).bind Scan.finish?

def EndsRun (chars : List Char) : Prop := ∀ c ∈ chars.head?, Scan.endsRun c

def Spells (chars : List Char) (tokens : List Token) : Prop :=
  ∀ found rest, EndsRun rest →
    scanFrom found (chars ++ rest) = scanFrom (tokens.reverse ++ found) rest

theorem EndsRun.append {chars rest : List Char} (h : EndsRun chars) (hrest : EndsRun rest) :
    EndsRun (chars ++ rest) := by
  cases chars with
  | nil => exact hrest
  | cons c chars => exact h

theorem endsRun_of_punctuation {c : Char} {token : Token} (h : punctuation? c = some token)
    (rest : List Char) : EndsRun (c :: rest) := by
  rintro d ⟨⟩
  simp [Scan.endsRun, h]

theorem ofRun?_of_literal {chars : List Char} {literal : Literal}
    (h : Literal.ofChars? chars = some literal) :
    ofRun? chars = some (.scalar (.number literal)) := by
  unfold ofRun?
  split
  · exact absurd h (by decide +revert)
  · exact absurd h (by decide +revert)
  · exact absurd h (by decide +revert)
  · rw [h, Option.map_some]

theorem endsRun_of_numeral {c : Char} (h : c.isDigit ∨ c = '-') : Scan.endsRun c = false := by
  rw [← Bool.not_eq_true]
  intro hends
  have hc : c = ' ' ∨ c = '\t' ∨ c = '\n' ∨ c = '\r' ∨ c = '"' ∨ c = '[' ∨ c = ']' ∨ c = '{' ∨
      c = '}' ∨ c = ',' ∨ c = ':' := by
    grind [Scan.endsRun, isGap, punctuation?]
  rcases hc with rfl | rfl | rfl | rfl | rfl | rfl | rfl | rfl | rfl | rfl | rfl <;>
    exact absurd h (by decide)

namespace Spells

variable {chars more : List Char} {tokens others : List Token} {token : Token}

theorem nil : Spells [] [] := fun _ _ _ => rfl

theorem append (h : Spells chars tokens) (k : Spells more others) (hends : EndsRun more) :
    Spells (chars ++ more) (tokens ++ others) := by
  intro found rest hrest
  rw [List.append_assoc, h _ _ (hends.append hrest), k _ _ hrest, List.reverse_append,
    List.append_assoc]

theorem not_gap_of_punctuation {c : Char} (h : punctuation? c = some token) :
    isGap c = false ∧ c ≠ '"' := by
  have hc : c = '[' ∨ c = ']' ∨ c = '{' ∨ c = '}' ∨ c = ',' ∨ c = ':' := by
    grind [punctuation?]
  rcases hc with rfl | rfl | rfl | rfl | rfl | rfl <;> decide

theorem punctuation {c : Char} (hc : punctuation? c = some token) (h : Spells more others) :
    Spells (c :: more) (token :: others) := by
  intro found rest hrest
  obtain ⟨hgap, hquote⟩ := not_gap_of_punctuation hc
  have hstep : Scan.step ⟨found, .between⟩ c = some ⟨token :: found, .between⟩ := by
    simp [Scan.step, Scan.enter, hgap, hquote, hc]
  rw [scanFrom, List.cons_append, List.foldlM_cons, hstep]
  show scanFrom (token :: found) (more ++ rest) = _
  rw [h _ _ hrest, List.reverse_cons, List.append_assoc]
  rfl

theorem scan_backslash (found : List Token) (points : List Nat) {letter : Char} {point : Nat}
    (hletter : letter ≠ 'u') (h : escapedPoint? letter = some point) :
    ['\\', letter].foldlM Scan.step ⟨found, .string points⟩ =
      some ⟨found, .string (point :: points)⟩ := by
  simp [Scan.step, hletter, h]

theorem scan_hex (found : List Token) (points : List Nat) {n : Nat} (h : n < 0x20) :
    ['\\', 'u', '0', '0', Text.Hex.digit (n / 16), Text.Hex.digit (n % 16)].foldlM Scan.step
      ⟨found, .string points⟩ = some ⟨found, .string (n :: points)⟩ := by
  have hzero : Text.Hex.value? '0' = some 0 := by decide
  have hhigh : Text.Hex.value? (Text.Hex.digit (n / 16)) = some (n / 16) :=
    Text.Hex.value?_digit (by omega)
  have hlow : Text.Hex.value? (Text.Hex.digit (n % 16)) = some (n % 16) :=
    Text.Hex.value?_digit (by omega)
  have hn : 16 * (n / 16) + n % 16 = n := by omega
  simp [Scan.step, hzero, hhigh, hlow, hn]

theorem scan_escape (found : List Token) (points : List Nat) (c : Char) :
    (escape c).foldlM Scan.step ⟨found, .string points⟩ =
      some ⟨found, .string (c.toNat :: points)⟩ := by
  unfold escape
  iterate 2
    split
    · rename_i hc
      subst hc
      rfl
  rename_i hquote hbackslash
  -- the control characters that have a letter of their own
  iterate 5
    split
    · rename_i hc
      rw [hc]
      exact scan_backslash found points (by decide) (by decide)
  split
  · rename_i hc
    exact scan_hex found points hc
  · rename_i hc
    simp [Scan.step, hquote, hbackslash, hc]

theorem scan_escaped (found : List Token) (points : List Nat) (chars : List Char) :
    (chars.flatMap escape).foldlM Scan.step ⟨found, .string points⟩ =
      some ⟨found, .string ((chars.map Char.toNat).reverse ++ points)⟩ := by
  induction chars generalizing points with
  | nil => rfl
  | cons c rest ih =>
    rw [List.flatMap_cons, List.foldlM_append, scan_escape]
    simp [ih]

theorem quote (s : String) (h : Spells more others) :
    Spells (Json.quote s ++ more) (.scalar (.text (pointsOf s)) :: others) := by
  intro found rest hrest
  have hscan : (Json.quote s).foldlM Scan.step ⟨found, .between⟩ =
      some ⟨.scalar (.text (pointsOf s)) :: found, .between⟩ := by
    rw [Json.quote, List.foldlM_cons]
    show (s.toList.flatMap escape ++ ['"']).foldlM Scan.step ⟨found, .string []⟩ = _
    rw [List.foldlM_append, scan_escaped]
    simp [Scan.step, pointsOf]
  rw [scanFrom, List.append_assoc, List.foldlM_append, hscan]
  show scanFrom (_ :: found) (more ++ rest) = _
  rw [h _ _ hrest, List.reverse_cons, List.append_assoc]
  rfl

theorem scan_run {chars : List Char} (h : ∀ c ∈ chars, Scan.endsRun c = false) (found : List Token)
    (before : List Char) :
    chars.foldlM Scan.step ⟨found, .run before⟩ = some ⟨found, .run (chars.reverse ++ before)⟩ := by
  induction chars generalizing before with
  | nil => rfl
  | cons c rest ih =>
    have hstep : Scan.step ⟨found, .run before⟩ c = some ⟨found, .run (c :: before)⟩ := by
      simp [Scan.step, h c (by simp)]
    rw [List.foldlM_cons, hstep]
    simpa using ih (fun d hd => h d (by simp [hd])) (c :: before)

theorem run (hne : chars ≠ []) (h : ∀ c ∈ chars, Scan.endsRun c = false)
    (htoken : ofRun? chars = some token) : Spells chars [token] := by
  intro found rest hrest
  obtain ⟨c, more, rfl⟩ := List.exists_cons_of_ne_nil hne
  have hc := h c (by simp)
  simp only [Scan.endsRun, Bool.or_eq_false_iff, decide_eq_false_iff_not,
    Option.isSome_eq_false_iff, Option.isNone_iff_eq_none] at hc
  have hstep : Scan.step ⟨found, .between⟩ c = some ⟨found, .run [c]⟩ := by
    simp [Scan.step, Scan.enter, hc]
  have hscan : (c :: more).foldlM Scan.step ⟨found, .between⟩ =
      some ⟨found, .run (c :: more).reverse⟩ := by
    rw [List.foldlM_cons, hstep]
    simpa using scan_run (fun d hd => h d (by simp [hd])) found [c]
  rw [scanFrom, List.foldlM_append, hscan]
  cases rest with
  | nil => simp [scanFrom, Scan.finish?, htoken]
  | cons d rest =>
    have hd : Scan.endsRun d := hrest d rfl
    have hleft : Scan.step ⟨found, .run (c :: more).reverse⟩ d =
        Scan.step ⟨token :: found, .between⟩ d := by
      simp only [Scan.step, hd, if_true, List.reverse_reverse, htoken, Option.map_some]
    show Option.bind (Option.bind (Scan.step ⟨found, .run (c :: more).reverse⟩ d) _) _ = _
    rw [hleft]
    rfl

theorem integer (n : Int) :
    Spells (Number.integer n).chars [.scalar (.number (.whole (n < 0) n.natAbs))] := by
  have hdigits : ∀ c ∈ Nat.toDigits 10 n.natAbs, c.isDigit ∨ c = '-' :=
    fun _ hc => .inl (Nat.isDigit_of_mem_toDigits (by decide) (by decide) hc)
  refine run ?_ ?_ (ofRun?_of_literal (Literal.ofChars?_integer n))
  · unfold Number.chars
    dsimp only
    split
    · exact List.cons_ne_nil _ _
    · exact Nat.toDigits_ne_nil
  · intro c hc
    refine endsRun_of_numeral ?_
    unfold Number.chars at hc
    dsimp only at hc
    split at hc
    · rcases List.mem_cons.1 hc with rfl | hc
      · exact .inr rfl
      · exact hdigits c hc
    · exact hdigits c hc

end Spells

end Token

end BrokerConfig.Json
