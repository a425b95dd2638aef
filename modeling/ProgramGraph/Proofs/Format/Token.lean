import Mathlib.Data.List.TakeWhile
import Mathlib.Tactic.IntervalCases
import ProgramGraph.Proofs.Format.Basic
import ProgramGraph.Value.Text
/-!
# The tokens of a written value

The compact text of a value is read as the tokens that the value is written with: strings
are read as what they were before they were quoted, integers as themselves
(`Token.ofText?_compact`). A numeral and a word end only where something else begins, so
what is said of the text of a value is said of it wherever that is the case
(`Token.Reads`).

The other way round, of all integers that a text may hold only those are read as such that
fit into 64 bits (`Token.fits_of_ofText?`).
-/

namespace ProgramGraph

namespace Numeral

/-- The digits of a number that is not zero do not begin with a zero. -/
theorem head?_toDigits {n : Nat} (h : 0 < n) : (Nat.toDigits 10 n).head? ≠ some '0' := by
  induction n using Nat.strongRecOn with
  | ind n ih =>
    rw [Nat.toDigits_eq_if (by decide)]
    split
    next hlt =>
      intro hhead
      have hzero : n.digitChar = '0' := Option.some.inj hhead
      rw [Nat.digitChar_eq_zero] at hzero
      omega
    next hge =>
      have hhead := ih (n / 10) (by omega) (by omega)
      obtain ⟨c, rest, hcons⟩ :=
        List.exists_cons_of_ne_nil (Nat.toDigits_ne_nil (n := n / 10) (b := 10))
      rw [hcons] at hhead ⊢
      exact hhead

/-- **The digits of a natural are a numeral,** with a minus sign in front or without one. -/
theorem ofChars?_toDigits (negative : Bool) (n : Nat) :
    ofChars? ((if negative then ['-'] else []) ++ Nat.toDigits 10 n) =
      some ⟨negative, Nat.toDigits 10 n, none, none⟩ := by
  have hdigits : ∀ c ∈ Nat.toDigits 10 n, c.isDigit = true :=
    fun c hc => Nat.isDigit_of_mem_toDigits (by decide) (by decide) hc
  have htake : (Nat.toDigits 10 n).takeWhile Char.isDigit = Nat.toDigits 10 n :=
    List.takeWhile_eq_self_iff.2 hdigits
  have hdrop : (Nat.toDigits 10 n).dropWhile Char.isDigit = [] :=
    List.dropWhile_eq_nil_iff.2 hdigits
  have hwhole : Nat.toDigits 10 n = ['0'] ∨
      Nat.toDigits 10 n ≠ [] ∧ (Nat.toDigits 10 n).head? ≠ some '0' := by
    rcases Nat.eq_zero_or_pos n with rfl | hpos
    · exact .inl rfl
    · exact .inr ⟨Nat.toDigits_ne_nil, head?_toDigits hpos⟩
  cases negative with
  | true =>
    simp only [ofChars?, if_true, List.singleton_append, htake, hdrop]
    rw [guard, if_pos hwhole]
    rfl
  | false =>
    -- no digit is a minus sign
    have hsign : ∀ rest, Nat.toDigits 10 n ≠ '-' :: rest := by
      intro rest hminus
      have hdigit := hdigits '-' (by rw [hminus]; exact List.mem_cons_self)
      revert hdigit
      decide
    simp only [ofChars?, Bool.false_eq_true, if_false, List.nil_append, htake, hdrop]
    rw [guard, if_pos hwhole]
    rfl

/-- A natural that fits is read as itself. -/
theorem number?_natural {n : Nat} (h : n < Word.count64) :
    number? ⟨false, Nat.toDigits 10 n, none, none⟩ = some (.int n) := by
  simp only [number?, int?, Option.isNone_none, and_self, if_true, Bool.false_eq_true, if_false,
    Nat.ofDigitChars_ten_toDigits, if_pos h]

/-- So is a negative integer. -/
theorem number?_negative {n : Nat} (hpos : 0 < n) (h : n ≤ Word.half64) :
    number? ⟨true, Nat.toDigits 10 n, none, none⟩ = some (.int (-n)) := by
  simp only [number?, int?, Option.isNone_none, and_self, if_true, Nat.ofDigitChars_ten_toDigits,
    if_pos (And.intro hpos h)]

/-- An integer that a numeral is read as fits. -/
theorem fits_of_number? {numeral : Numeral} {n : Number} (h : numeral.number? = some n) :
    n.Fits := by
  unfold number? at h
  split at h
  next i hint =>
    obtain rfl := Option.some.inj h
    unfold int? at hint
    dsimp only at hint
    have hhalf : (Word.half64 : Int) ≤ Word.count64 := by decide
    split at hint
    · split at hint
      · split at hint
        next hle =>
          obtain rfl := Option.some.inj hint
          constructor <;> omega
        next => cases hint
      · split at hint
        next hlt =>
          obtain rfl := Option.some.inj hint
          constructor <;> omega
        next => cases hint
    · cases hint
  next =>
    obtain ⟨x, -, rfl⟩ := Option.map_eq_some_iff.1 h
    trivial

end Numeral

namespace Json

open Token

/-! ## Reading characters -/

namespace Token

/-- What is left of a text does not go on with a word or a numeral. -/
def Ends (rest : List Char) : Prop :=
  ∀ c ∈ rest.head?, c.isLower = false ∧ isNumeralChar c = false

theorem ends_nil : Ends [] := nofun

theorem ends_cons {c : Char} {rest : List Char}
    (h : c.isLower = false ∧ isNumeralChar c = false) : Ends (c :: rest) := by
  intro d hd
  cases hd
  exact h

/-- **Some characters are read as some tokens,** between two tokens and whatever has been
found before, if what is left ends a word or a numeral. -/
def Reads (chars : List Char) (tokens : List Token) : Prop :=
  ∀ found rest, Ends rest →
    lex?.go .between found (chars ++ rest) = lex?.go .between (tokens.reverse ++ found) rest

/-- A character that is a token by itself. -/
def Punctuates (c : Char) (t : Token) : Prop :=
  start? c = some (.between, [t]) ∧ c.isLower = false ∧ isNumeralChar c = false

theorem go_punctuation {c : Char} {t : Token} (h : Punctuates c t) (found : List Token)
    (rest : List Char) :
    lex?.go .between found (c :: rest) = lex?.go .between (t :: found) rest := by
  simp only [lex?.go, step?, h.1]
  rfl

namespace Reads

variable {chars chars' : List Char} {tokens tokens' : List Token} {c : Char} {t : Token}

theorem nil : Reads [] [] := fun _ _ _ => rfl

/-- A token by itself, and what comes after it. -/
theorem cons (hc : Punctuates c t) (h : Reads chars tokens) : Reads (c :: chars) (t :: tokens) := by
  intro found rest hrest
  rw [List.cons_append, go_punctuation hc, h _ rest hrest, List.reverse_cons, List.append_assoc]
  rfl

/-- What comes before a token by itself. -/
theorem append_cons (h : Reads chars tokens) (hc : Punctuates c t) (h' : Reads chars' tokens') :
    Reads (chars ++ c :: chars') (tokens ++ t :: tokens') := by
  intro found rest hrest
  have hafter := cons hc h' (tokens.reverse ++ found) rest hrest
  rw [List.cons_append] at hafter
  rw [List.append_assoc, List.cons_append, h _ _ (ends_cons hc.2), hafter, List.reverse_append,
    List.append_assoc]

/-- A token by itself at the end. -/
theorem concat (h : Reads chars tokens) (hc : Punctuates c t) :
    Reads (chars ++ [c]) (tokens ++ [t]) :=
  h.append_cons hc nil

end Reads

/-- A word or a numeral is left where it ends. -/
theorem go_leave {mode : Mode} {t : Token} {rest : List Char}
    (hmode : ∀ c, c.isLower = false ∧ isNumeralChar c = false → step? mode c = step?.leave mode c)
    (hend : atEnd? mode = some [t]) (hrest : Ends rest) (found : List Token) :
    lex?.go mode found rest = lex?.go .between (t :: found) rest := by
  cases rest with
  | nil =>
    have hbetween : atEnd? .between = some [] := rfl
    simp only [lex?.go, hend, hbetween]
    rfl
  | cons c rest =>
    have hbetween : step? .between c = start? c := rfl
    simp only [lex?.go, hmode c (hrest c rfl), hbetween, step?.leave, hend]
    cases start? c with
    | none => rfl
    | some started =>
      simp only [Option.bind_eq_bind, Option.bind_some, Option.pure_def, List.reverse_append,
        List.reverse_cons, List.reverse_nil, List.nil_append, List.append_assoc]
      rfl

/-- A word. -/
theorem go_word {letters : List Char} {t : Token} {rest : List Char}
    (hend : ofWord? (String.ofList letters.reverse) = some t) (hrest : Ends rest)
    (found : List Token) :
    lex?.go (.word letters) found rest = lex?.go .between (t :: found) rest := by
  refine go_leave (fun c hc => ?_) ?_ hrest found
  · simp only [step?, hc.1, Bool.false_eq_true, if_false]
  · simp only [atEnd?, hend, Option.map_some]

/-! ## Strings -/

/-- **An escaped character is read as the character.** -/
theorem go_escape (c : Char) (gathered : List Char) (found : List Token) (rest : List Char) :
    lex?.go (.text (some gathered)) found (Value.escape c ++ rest) =
      lex?.go (.text (some (c :: gathered))) found rest := by
  by_cases hcontrol : c.toNat < 0x20
  · -- a control character is one of a few
    obtain ⟨n, hn, rfl⟩ : ∃ n < 0x20, c = Char.ofNat n := ⟨c.toNat, hcontrol, c.ofNat_toNat.symm⟩
    interval_cases n <;> rfl
  · by_cases hquote : c = '"'
    · subst hquote
      rfl
    by_cases hslash : c = '\\'
    · subst hslash
      rfl
    have hescape : Value.escape c = [c] := by
      have hne : ∀ d : Char, d.toNat < 0x20 → c ≠ d := by
        rintro _ hd rfl
        exact hcontrol hd
      simp only [Value.escape, hquote, hslash, hcontrol, if_false, hne '\x08' (by decide),
        hne '\x0c' (by decide), hne '\n' (by decide), hne '\r' (by decide), hne '\t' (by decide)]
    rw [hescape, List.singleton_append]
    simp only [lex?.go, step?, inText?, hquote, hslash, hcontrol, if_false]
    rfl

/-- So are several. -/
theorem go_escapes (chars gathered : List Char) (found : List Token) (rest : List Char) :
    lex?.go (.text (some gathered)) found (chars.flatMap Value.escape ++ rest) =
      lex?.go (.text (some (chars.reverse ++ gathered))) found rest := by
  induction chars generalizing gathered with
  | nil => rfl
  | cons c chars ih =>
    rw [List.flatMap_cons, List.append_assoc, go_escape, ih, List.reverse_cons, List.append_assoc]
    rfl

/-- **A quoted string is read as the string.** -/
theorem reads_quote (s : String) : Reads (Value.quote s).toList [.text s] := by
  intro found rest _
  have hquote : (Value.quote s).toList ++ rest =
      '"' :: (s.toList.flatMap Value.escape ++ '"' :: rest) := by
    simp only [Value.quote, String.toList_ofList, List.append_assoc, List.cons_append,
      List.nil_append]
  have hstart : lex?.go .between found ('"' :: (s.toList.flatMap Value.escape ++ '"' :: rest)) =
      lex?.go (.text (some [])) found (s.toList.flatMap Value.escape ++ '"' :: rest) := rfl
  have hend : lex?.go (.text (some (s.toList.reverse ++ []))) found ('"' :: rest) =
      lex?.go .between (ofGathered (some (s.toList.reverse ++ [])) :: found) rest := rfl
  rw [hquote, hstart, go_escapes, hend, ofGathered, List.append_nil, List.reverse_reverse,
    String.ofList_toList]
  rfl

/-- A digit begins a numeral. -/
theorem start?_digit {c : Char} (h : c.isDigit = true) : start? c = some (.numeral [c], []) := by
  obtain ⟨hlow, hhigh⟩ : 48 ≤ c.toNat ∧ c.toNat ≤ 57 := by
    simpa [Char.isDigit, UInt32.le_iff_toNat_le] using h
  rw [← c.ofNat_toNat]
  generalize c.toNat = n at hlow hhigh
  interval_cases n <;> rfl

/-- The characters of a numeral are gathered. -/
theorem go_numeral {chars gathered : List Char} (h : ∀ c ∈ chars, isNumeralChar c = true)
    (found : List Token) (rest : List Char) :
    lex?.go (.numeral gathered) found (chars ++ rest) =
      lex?.go (.numeral (chars.reverse ++ gathered)) found rest := by
  induction chars generalizing gathered with
  | nil => rfl
  | cons c chars ih =>
    obtain ⟨hc, hchars⟩ := List.forall_mem_cons.1 h
    rw [List.cons_append, List.reverse_cons, List.append_assoc, List.singleton_append, ← ih hchars]
    simp only [lex?.go, step?, hc, if_true]
    rfl

/-- A numeral that is read as a number. -/
theorem reads_numeral {c : Char} {chars : List Char} {numeral : Numeral} {n : Number}
    (hstart : start? c = some (.numeral [c], [])) (hchars : ∀ d ∈ chars, d.isDigit = true)
    (hnumeral : Numeral.ofChars? (c :: chars) = some numeral) (hn : numeral.number? = some n) :
    Reads (c :: chars) [.number n] := by
  intro found rest hrest
  have hbegin : lex?.go .between found (c :: (chars ++ rest)) =
      lex?.go (.numeral [c]) found (chars ++ rest) := by
    simp only [lex?.go, step?, hstart]
    rfl
  have hgather : ∀ d ∈ chars, isNumeralChar d = true := fun d hd => by
    simp only [isNumeralChar, hchars d hd, Bool.true_or]
  have hend : atEnd? (.numeral (chars.reverse ++ [c])) = some [.number n] := by
    simp only [atEnd?, List.reverse_append, List.reverse_reverse, List.reverse_singleton,
      List.singleton_append, hnumeral, Option.map_some, hn]
  rw [List.cons_append, hbegin, go_numeral hgather]
  refine go_leave (fun d hd => ?_) hend hrest found
  simp only [step?, hd.2, Bool.false_eq_true, if_false]

/-- **A written integer is read as the integer,** if it fits. -/
theorem reads_int {i : Int} (h : (Number.int i).Fits) :
    Reads (Number.int i).text.toList [.number (.int i)] := by
  obtain ⟨hlow, hhigh⟩ := h
  have hdigits : ∀ n, ∀ c ∈ Nat.toDigits 10 n, c.isDigit = true :=
    fun n c hc => Nat.isDigit_of_mem_toDigits (by decide) (by decide) hc
  cases i with
  | ofNat n =>
    have htext : (Number.int (.ofNat n)).text.toList = Nat.toDigits 10 n := Nat.toList_repr
    have hnumeral : Numeral.ofChars? (Nat.toDigits 10 n) = _ := Numeral.ofChars?_toDigits false n
    have hnumber := Numeral.number?_natural (n := n) (Int.ofNat_lt.1 hhigh)
    have hdigit := hdigits n
    obtain ⟨c, chars, hcons⟩ := List.exists_cons_of_ne_nil (Nat.toDigits_ne_nil (n := n) (b := 10))
    rw [htext]
    rw [hcons] at hnumeral hdigit ⊢
    rw [List.forall_mem_cons] at hdigit
    exact reads_numeral (start?_digit hdigit.1) hdigit.2 hnumeral (hcons ▸ hnumber)
  | negSucc n =>
    have htext : (Number.int (.negSucc n)).text.toList = '-' :: Nat.toDigits 10 (n + 1) := by
      have hrepr : (Number.int (.negSucc n)).text = "-" ++ (n + 1).repr := rfl
      rw [hrepr, String.toList_append, Nat.toList_repr]
      rfl
    have hnumeral : Numeral.ofChars? ('-' :: Nat.toDigits 10 (n + 1)) = _ :=
      Numeral.ofChars?_toDigits true (n + 1)
    have hnumber := Numeral.number?_negative (n := n + 1) (Nat.succ_pos n) (by omega)
    rw [htext]
    exact reads_numeral rfl (hdigits (n + 1)) hnumeral hnumber

/-! ## Integers of a text -/

/-- The token is no integer that does not fit. -/
def Fits : Token → Prop
  | number n => n.Fits
  | _ => True

theorem fits_nil : ∀ t ∈ ([] : List Token), t.Fits := nofun

theorem fits_of_atEnd? {mode : Mode} {tokens : List Token} (h : atEnd? mode = some tokens) :
    ∀ t ∈ tokens, t.Fits := by
  unfold atEnd? at h
  split at h
  next =>
    cases h
    exact fits_nil
  next letters =>
    obtain ⟨word, hword, rfl⟩ := Option.map_eq_some_iff.1 h
    refine List.forall_mem_singleton.2 ?_
    unfold ofWord? at hword
    repeat' split at hword
    all_goals
      cases hword
      try trivial
  next chars =>
    obtain ⟨numeral, -, rfl⟩ := Option.map_eq_some_iff.1 h
    split
    next n hn => exact List.forall_mem_singleton.2 (Numeral.fits_of_number? hn)
    next => exact List.forall_mem_singleton.2 trivial
  next => cases h

theorem forall_mem_ite {α : Type} {p : Prop} [Decidable p] {a b : Option α} {q : α → Prop}
    (ha : ∀ x ∈ a, q x) (hb : ∀ x ∈ b, q x) : ∀ x ∈ if p then a else b, q x := by
  split
  · exact ha
  · exact hb

theorem fits_of_start? {c : Char} {mode : Mode} {tokens : List Token}
    (h : start? c = some (mode, tokens)) : ∀ t ∈ tokens, t.Fits := by
  have hall : ∀ started ∈ start? c, ∀ t ∈ started.2, t.Fits := by
    unfold start?
    repeat' refine forall_mem_ite ?_ ?_
    all_goals
      rintro _ ⟨⟩ <;> first
        | exact fits_nil
        | exact List.forall_mem_singleton.2 trivial
  exact hall _ h

theorem fits_of_inText? {chars : Gathered} {c : Char} {mode : Mode} {tokens : List Token}
    (h : inText? chars c = some (mode, tokens)) : ∀ t ∈ tokens, t.Fits := by
  unfold inText? at h
  split at h
  · cases h
    cases chars <;> exact List.forall_mem_singleton.2 trivial
  · repeat' split at h
    all_goals first
      | cases h; exact fits_nil
      | cases h

/-- **No character ends an integer that does not fit.** -/
theorem fits_of_step? {mode mode' : Mode} {c : Char} {tokens : List Token}
    (h : step? mode c = some (mode', tokens)) : ∀ t ∈ tokens, t.Fits := by
  have hleave : ∀ {tokens}, step?.leave mode c = some (mode', tokens) → ∀ t ∈ tokens, t.Fits := by
    intro tokens hleave
    obtain ⟨ended, hended, hleave⟩ := Option.bind_eq_some_iff.1 hleave
    obtain ⟨⟨next, more⟩, hstart, hleave⟩ := Option.bind_eq_some_iff.1 hleave
    cases hleave
    exact List.forall_mem_append.2 ⟨fits_of_atEnd? hended, fits_of_start? hstart⟩
  have hescape : ∀ {chars : Gathered} {tokens}, inEscape? chars c = some (mode', tokens) →
      ∀ t ∈ tokens, t.Fits := by
    intro chars tokens hescape
    unfold inEscape? at hescape
    split at hescape
    · cases hescape
      exact fits_nil
    · obtain ⟨escaped, -, hescape⟩ := Option.bind_eq_some_iff.1 hescape
      cases hescape
      exact fits_nil
  cases mode with
  | between => exact fits_of_start? h
  | word letters =>
    simp only [step?] at h
    split at h
    · cases h
      exact fits_nil
    · exact hleave h
  | numeral chars =>
    simp only [step?] at h
    split at h
    · cases h
      exact fits_nil
    · exact hleave h
  | text chars => exact fits_of_inText? h
  | escape chars => exact hescape h
  | number chars high digits code =>
    obtain ⟨value, -, h⟩ := Option.bind_eq_some_iff.1 h
    split at h
    all_goals
      cases h
      exact fits_nil
  | paired chars high =>
    simp only [step?] at h
    split at h
    · cases h
      exact fits_nil
    · exact fits_of_inText? h
  | pairedEscape chars high =>
    simp only [step?] at h
    split at h
    · cases h
      exact fits_nil
    · exact hescape h

/-- So it is for the characters that are left. -/
theorem fits_of_go {mode : Mode} {found tokens : List Token} {chars : List Char}
    (hfound : ∀ t ∈ found, t.Fits) (h : lex?.go mode found chars = some tokens) :
    ∀ t ∈ tokens, t.Fits := by
  induction chars generalizing mode found with
  | nil =>
    obtain ⟨ended, hended, h⟩ := Option.bind_eq_some_iff.1 h
    cases h
    intro t ht
    rw [List.mem_reverse, List.mem_append, List.mem_reverse] at ht
    exact ht.elim (fits_of_atEnd? hended t) (hfound t)
  | cons c rest ih =>
    obtain ⟨⟨next, more⟩, hstep, h⟩ := Option.bind_eq_some_iff.1 h
    refine ih ?_ h
    intro t ht
    rw [List.mem_append, List.mem_reverse] at ht
    exact ht.elim (fits_of_step? hstep t) (hfound t)

/-- **The integers that are read from a text fit.** -/
theorem fits_of_ofText? {text : String} {tokens : List Token} (h : ofText? text = some tokens) :
    ∀ t ∈ tokens, t.Fits :=
  fits_of_go fits_nil h

end Token

end Json

/-! ## Values -/

namespace Value

open Json Json.Token

mutual

/-- The tokens that a value is written with. -/
def tokens : Value → List Token
  | null => [.null]
  | bool b => [.bool b]
  | number n => [.number n]
  | text s => [.text s]
  | array items => .openArray :: (tokensOfItems items ++ [.closeArray])
  | object fields => .openObject :: (tokensOfFields fields ++ [.closeObject])

/-- Those of the items, with a comma between two of them. -/
def tokensOfItems : List Value → List Token
  | [] => []
  | [item] => item.tokens
  | item :: next :: rest => item.tokens ++ .comma :: tokensOfItems (next :: rest)

/-- Those of the fields, with a comma between two of them. -/
def tokensOfFields : List (String × Value) → List Token
  | [] => []
  | [(key, item)] => .text key :: .colon :: item.tokens
  | (key, item) :: next :: rest =>
    .text key :: .colon :: (item.tokens ++ .comma :: tokensOfFields (next :: rest))

end

/-- Characters that are tokens by themselves. -/
theorem punctuates : Punctuates '[' .openArray ∧ Punctuates ']' .closeArray ∧
    Punctuates '\x7b' .openObject ∧ Punctuates '\x7d' .closeObject ∧ Punctuates ',' .comma ∧
    Punctuates ':' .colon := by
  refine ⟨?_, ?_, ?_, ?_, ?_, ?_⟩ <;> exact ⟨rfl, by decide, by decide⟩

/-- The field of an object. -/
theorem reads_field {key : String} {chars : List Char} {tokens : List Token}
    (h : Reads chars tokens) :
    Reads ((quote key).toList ++ ':' :: chars) (.text key :: .colon :: tokens) :=
  (reads_quote key).append_cons punctuates.2.2.2.2.2 h

mutual

/-- **The compact text of a value is read as its tokens,** if its numbers are integers and
fit. -/
theorem reads_compact : (v : Value) → v.Integral → (levels : Nat) → v.toSpelling.Within levels →
    Reads v.compact.toList v.tokens
  | null, _, _, _ => fun found _ hrest => go_word rfl hrest found
  | bool true, _, _, _ => fun found _ hrest => go_word rfl hrest found
  | bool false, _, _, _ => fun found _ hrest => go_word rfl hrest found
  | number n, hintegral, _, hfits => by
    obtain ⟨i, rfl⟩ := hintegral
    exact reads_int hfits
  | text s, _, _, _ => reads_quote s
  | array items, hintegral, levels + 1, hwithin => by
    have hitems := reads_compactItems items hintegral levels hwithin
    have htext : (array items).compact.toList = '[' :: ((compactItems items).toList ++ [']']) := by
      simp only [compact, String.toList_append]
      rfl
    rw [htext]
    exact (hitems.concat punctuates.2.1).cons punctuates.1
  | object fields, hintegral, levels + 1, hwithin => by
    have hfields := reads_compactFields fields hintegral levels hwithin
    have htext : (object fields).compact.toList =
        '\x7b' :: ((compactFields fields).toList ++ ['\x7d']) := by
      simp only [compact, String.toList_append]
      rfl
    rw [htext]
    exact (hfields.concat punctuates.2.2.2.1).cons punctuates.2.2.1

/-- So are the items of an array. -/
theorem reads_compactItems : (items : List Value) → ItemsIntegral items → (levels : Nat) →
    Spelling.ItemsWithin levels (spellItems items) →
    Reads (compactItems items).toList (tokensOfItems items)
  | [], _, _, _ => .nil
  | [item], hintegral, levels, hwithin => reads_compact item hintegral.1 levels hwithin.1
  | item :: next :: rest, hintegral, levels, hwithin => by
    have hitem := reads_compact item hintegral.1 levels hwithin.1
    have hrest := reads_compactItems (next :: rest) hintegral.2 levels hwithin.2
    have htext : (compactItems (item :: next :: rest)).toList =
        item.compact.toList ++ ',' :: (compactItems (next :: rest)).toList := by
      simp only [compactItems, String.toList_append, List.append_assoc]
      rfl
    rw [htext]
    exact hitem.append_cons punctuates.2.2.2.2.1 hrest

/-- So are the fields of an object. -/
theorem reads_compactFields : (fields : List (String × Value)) → FieldsIntegral fields →
    (levels : Nat) → Spelling.FieldsWithin levels (spellFields fields) →
    Reads (compactFields fields).toList (tokensOfFields fields)
  | [], _, _, _ => .nil
  | [(key, item)], hintegral, levels, hwithin => by
    have hitem := reads_compact item hintegral.1 levels hwithin.1
    have htext : (compactFields [(key, item)]).toList =
        (quote key).toList ++ ':' :: item.compact.toList := by
      simp only [compactFields, String.toList_append, List.append_assoc]
      rfl
    rw [htext]
    exact reads_field hitem
  | (key, item) :: next :: rest, hintegral, levels, hwithin => by
    have hitem := reads_compact item hintegral.1 levels hwithin.1
    have hrest := reads_compactFields (next :: rest) hintegral.2 levels hwithin.2
    have htext : (compactFields ((key, item) :: next :: rest)).toList = (quote key).toList ++
        ':' :: (item.compact.toList ++ ',' :: (compactFields (next :: rest)).toList) := by
      simp only [compactFields, String.toList_append, List.append_assoc]
      rfl
    rw [htext]
    exact reads_field (hitem.append_cons punctuates.2.2.2.2.1 hrest)

end

/-- **The tokens of the compact text** are those that the value is written with. -/
theorem ofText?_compact {v : Value} (hintegral : v.Integral) {levels : Nat}
    (hwithin : v.toSpelling.Within levels) : Token.ofText? v.compact = some v.tokens := by
  have hreads := reads_compact v hintegral levels hwithin [] [] ends_nil
  rw [List.append_nil, List.append_nil] at hreads
  have hend : Token.ofText? v.compact = some v.tokens.reverse.reverse := hreads
  rw [hend, List.reverse_reverse]

end Value

end ProgramGraph
