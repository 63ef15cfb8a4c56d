import Mathlib.Data.List.Basic
import Mathlib.Data.UInt

/-!
# Words of a shell line

How a POSIX shell divides a line into words and operators and removes the quotes, for lines in which it
expands nothing. Blanks and operators end a word, and quotes are not part of it. So a text is one word
that spells the text itself only if it holds none of these, up to a backslash at its very end, which
stands for itself.
-/

namespace ShellWords

/-- Space and tab. -/
def isBlank (b : UInt8) : Bool := b = 32 || b = 9

/-- The newline and the bytes of which operators consist. -/
def isOperator (b : UInt8) : Bool := b ∈ ([10, 38, 40, 41, 59, 60, 62, 124] : List UInt8)

/-- The backslash and the two quotes. -/
def isQuote (b : UInt8) : Bool := b = 92 || b = 39 || b = 34

/-- The bytes that begin a substitution or belong to a file name pattern. -/
def isExpansion (b : UInt8) : Bool := b ∈ ([36, 42, 63, 91, 96] : List UInt8)

/-- A byte that an unquoted word takes as it is. -/
def isPlain (b : UInt8) : Bool := !isBlank b && !isOperator b && !isQuote b

/-- Words and operators. -/
inductive Token where
  | word (w : List UInt8)
  | operator (b : UInt8)
  /-- The line ends inside a quotation. -/
  | unterminated
  deriving DecidableEq

/-- Where in a line the shell is. -/
inductive Mode where
  | unquoted
  /-- Behind an unquoted backslash. -/
  | backslash
  | single
  | double
  /-- Behind a backslash between double quotes. -/
  | doubleBackslash
  | comment

/-- The word in progress ends. -/
def flush : Option (List UInt8) → List Token
  | none => []
  | some w => [.word w]

/-- Bytes are added to the word in progress, which begins with them if there is none. -/
def push (word : Option (List UInt8)) (s : List UInt8) : Option (List UInt8) :=
  some (word.getD [] ++ s)

/-- The tokens of the rest of a line, quotes removed. -/
def lex : Mode → Option (List UInt8) → List UInt8 → List Token
  | .unquoted, word, [] => flush word
  | .backslash, word, [] => flush (push word [92])
  | .comment, word, [] => flush word
  | .single, _, [] | .double, _, [] | .doubleBackslash, _, [] => [.unterminated]
  | .unquoted, word, b :: rest =>
    if b = 92 then lex .backslash word rest else
    if b = 39 then lex .single (push word []) rest else
    if b = 34 then lex .double (push word []) rest else
    if isBlank b then flush word ++ lex .unquoted none rest else
    if isOperator b then flush word ++ .operator b :: lex .unquoted none rest else
    if b = 35 ∧ word = none then lex .comment none rest else
    lex .unquoted (push word [b]) rest
  | .backslash, word, b :: rest =>
    if b = 10 then lex .unquoted word rest else lex .unquoted (push word [b]) rest
  | .single, word, b :: rest =>
    if b = 39 then lex .unquoted word rest else lex .single (push word [b]) rest
  | .double, word, b :: rest =>
    if b = 34 then lex .unquoted word rest else
    if b = 92 then lex .doubleBackslash word rest else lex .double (push word [b]) rest
  | .doubleBackslash, word, b :: rest =>
    if b = 10 then lex .double word rest else
    if b = 34 ∨ b = 36 ∨ b = 92 ∨ b = 96 then lex .double (push word [b]) rest
    else lex .double (push word [92, b]) rest
  | .comment, word, b :: rest =>
    if b = 10 then flush word ++ .operator b :: lex .unquoted none rest
    else lex .comment word rest

/-- The words of a simple command; none if the line holds anything else. -/
def words : List Token → Option (List (List UInt8))
  | [] => some []
  | .word w :: rest => (words rest).map (w :: ·)
  | .operator _ :: _ | .unterminated :: _ => none

/-- The words of a line. -/
def simpleCommand (line : List UInt8) : Option (List (List UInt8)) := words (lex .unquoted none line)

/-- A text that stands for itself: plain bytes, and perhaps a backslash behind them. -/
def Literal (s : List UInt8) : Prop :=
  (∀ b ∈ s, isPlain b = true) ∨ ∃ t, s = t ++ [92] ∧ ∀ b ∈ t, isPlain b = true

/-- A simple command consists of its words. -/
theorem words_eq_some_iff {tokens : List Token} {ws : List (List UInt8)} :
    words tokens = some ws ↔ tokens = ws.map .word := by
  induction tokens generalizing ws with
  | nil => cases ws <;> simp [words]
  | cons token rest ih =>
    cases token with
    | operator b => cases ws <;> simp [words]
    | unterminated => cases ws <;> simp [words]
    | word w =>
      cases ws with
      | nil => simp [words]
      | cons v ws =>
        rw [words, Option.map_eq_some_iff, List.map_cons, List.cons.injEq, Token.word.injEq]
        constructor
        · rintro ⟨vs, hvs, hcons⟩
          obtain ⟨rfl, rfl⟩ := List.cons.inj hcons
          exact ⟨rfl, ih.mp hvs⟩
        · rintro ⟨rfl, hrest⟩
          exact ⟨ws, ih.mpr hrest, rfl⟩

/-- A finished word and what follows it are one word only if there is none before or after. -/
theorem flush_append_eq {word : Option (List UInt8)} {later : List Token} {v : List UInt8}
    (h : flush word ++ later = [.word v]) :
    (word = some v ∧ later = []) ∨ (word = none ∧ later = [.word v]) := by
  cases word with
  | none => exact .inr ⟨rfl, h⟩
  | some w =>
    simp only [flush, List.singleton_append, List.cons.injEq, Token.word.injEq] at h
    exact .inl ⟨congrArg some h.1, h.2⟩

/-- A plain byte has no meaning of its own. -/
theorem isPlain_iff {b : UInt8} :
    isPlain b = true ↔ isBlank b = false ∧ isOperator b = false ∧ b ≠ 92 ∧ b ≠ 39 ∧ b ≠ 34 := by
  simp [isPlain, isQuote, and_assoc]

/-- A plain byte is added to the word in progress. -/
theorem lex_plain_cons {b : UInt8} (hb : isPlain b = true) (w rest : List UInt8) :
    lex .unquoted (some w) (b :: rest) = lex .unquoted (some (w ++ [b])) rest := by
  obtain ⟨hblank, hoperator, hbackslash, hsingle, hdouble⟩ := isPlain_iff.mp hb
  rw [lex, if_neg hbackslash, if_neg hsingle, if_neg hdouble, hblank, hoperator, if_neg (by decide),
    if_neg (by decide), if_neg (by simp)]
  rfl

/-- It begins a word, unless it begins a comment. -/
theorem lex_plain_start {b : UInt8} (hb : isPlain b = true) (hcomment : b ≠ 35) (rest : List UInt8) :
    lex .unquoted none (b :: rest) = lex .unquoted (some [b]) rest := by
  obtain ⟨hblank, hoperator, hbackslash, hsingle, hdouble⟩ := isPlain_iff.mp hb
  rw [lex, if_neg hbackslash, if_neg hsingle, if_neg hdouble, hblank, hoperator, if_neg (by decide),
    if_neg (by decide), if_neg fun h => hcomment h.1]
  rfl

/-- Several plain bytes are added to the word in progress. -/
theorem lex_plain {s : List UInt8} (hs : ∀ b ∈ s, isPlain b = true) (w rest : List UInt8) :
    lex .unquoted (some w) (s ++ rest) = lex .unquoted (some (w ++ s)) rest := by
  induction s generalizing w with
  | nil => rw [List.nil_append, List.append_nil]
  | cons b s ih =>
    obtain ⟨hb, hs⟩ := List.forall_mem_cons.mp hs
    rw [List.cons_append, lex_plain_cons hb, ih hs, List.append_assoc, List.singleton_append]

/-- A literal text completes the word in progress. -/
theorem lex_literal {s : List UInt8} (hs : Literal s) (w : List UInt8) :
    lex .unquoted (some w) s = [.word (w ++ s)] := by
  rcases hs with hs | ⟨t, rfl, ht⟩
  · have hplain := lex_plain hs w []
    rw [List.append_nil] at hplain
    rw [hplain]
    rfl
  · rw [lex_plain ht, ← List.append_assoc]
    rfl

/-- The bytes that a mode still holds back. -/
def Mode.pending : Mode → ℕ
  | .backslash | .doubleBackslash => 1
  | .unquoted | .single | .double | .comment => 0

/-- A word grows by the bytes that are added. -/
theorem length_push (word : Option (List UInt8)) (s : List UInt8) :
    ((push word s).getD []).length = (word.getD []).length + s.length := by
  rw [push, Option.getD_some, List.length_append]

/-- A word that ends is the one in progress. -/
theorem length_of_flush {word : Option (List UInt8)} {v : List UInt8} (h : flush word = [.word v]) :
    v.length = (word.getD []).length := by
  cases word with
  | none => simp [flush] at h
  | some w =>
    simp only [flush, List.cons.injEq, Token.word.injEq, and_true] at h
    rw [h, Option.getD_some]

/-- One byte of a text that makes one word: that was complete before, or the rest makes it of what is there and
at most one byte more. -/
theorem lex_cons_word {mode : Mode} {word : Option (List UInt8)} {b : UInt8} {rest v : List UInt8}
    (h : lex mode word (b :: rest) = [.word v]) :
    word = some v ∨ ∃ mode' word', lex mode' word' rest = [.word v] ∧
      (word'.getD []).length + mode'.pending ≤ (word.getD []).length + mode.pending + 1 := by
  have hflush {later : List Token} (h' : flush word ++ later = [.word v]) : word = some v ∨ later = [.word v] :=
    (flush_append_eq h').imp And.left And.right
  cases mode with
  | unquoted =>
    rw [lex] at h
    split at h
    · exact .inr ⟨_, _, h, le_rfl⟩
    split at h
    · exact .inr ⟨_, _, h, by rw [length_push, List.length_nil]; simp only [Mode.pending]; omega⟩
    split at h
    · exact .inr ⟨_, _, h, by rw [length_push, List.length_nil]; simp only [Mode.pending]; omega⟩
    split at h
    · exact (hflush h).imp_right fun hlater => ⟨_, _, hlater, by simp [Mode.pending]⟩
    split at h
    · exact (hflush h).imp_right fun hlater => by simp at hlater
    split at h
    · exact .inr ⟨_, _, h, by simp [Mode.pending]⟩
    · exact .inr ⟨_, _, h, by rw [length_push, List.length_singleton]; omega⟩
  | backslash =>
    rw [lex] at h
    split at h
    · exact .inr ⟨_, _, h, by simp only [Mode.pending]; omega⟩
    · exact .inr ⟨_, _, h, by rw [length_push, List.length_singleton]; simp only [Mode.pending]; omega⟩
  | single =>
    rw [lex] at h
    split at h
    · exact .inr ⟨_, _, h, by simp only [Mode.pending]; omega⟩
    · exact .inr ⟨_, _, h, by rw [length_push, List.length_singleton]; omega⟩
  | double =>
    rw [lex] at h
    split at h
    · exact .inr ⟨_, _, h, by simp only [Mode.pending]; omega⟩
    split at h
    · exact .inr ⟨_, _, h, le_rfl⟩
    · exact .inr ⟨_, _, h, by rw [length_push, List.length_singleton]; omega⟩
  | doubleBackslash =>
    rw [lex] at h
    split at h
    · exact .inr ⟨_, _, h, by simp only [Mode.pending]; omega⟩
    split at h
    · exact .inr ⟨_, _, h, by rw [length_push, List.length_singleton]; simp only [Mode.pending]; omega⟩
    · refine .inr ⟨_, _, h, ?_⟩
      rw [length_push, List.length_cons, List.length_singleton]
      simp only [Mode.pending]
      omega
  | comment =>
    rw [lex] at h
    split at h
    · exact (hflush h).imp_right fun hlater => by simp at hlater
    · exact .inr ⟨_, _, h, by simp only [Mode.pending]; omega⟩

/-- A word is not longer than the text of which it is made: a byte adds at most itself and what was held
back. -/
theorem lex_length {mode : Mode} {word : Option (List UInt8)} {bytes v : List UInt8}
    (h : lex mode word bytes = [.word v]) :
    v.length ≤ (word.getD []).length + mode.pending + bytes.length := by
  induction bytes generalizing mode word with
  | nil =>
    cases mode with
    | unquoted | comment => exact (length_of_flush h).le
    | backslash =>
      rw [length_of_flush h, length_push]
      exact le_rfl
    | single | double | doubleBackslash => simp [lex] at h
  | cons b rest ih =>
    rw [List.length_cons]
    rcases lex_cons_word h with rfl | ⟨mode', word', hrest, hle⟩
    · rw [Option.getD_some]
      omega
    · have hshort := ih hrest
      omega

/-- A text completes the word in progress as it is only if it is literal. -/
theorem literal_of_lex {w s : List UInt8} (h : lex .unquoted (some w) s = [.word (w ++ s)]) :
    Literal s := by
  induction s generalizing w with
  | nil => exact .inl fun b hb => absurd hb List.not_mem_nil
  | cons b rest ih =>
    have hlength (mode : Mode) (word : Option (List UInt8))
        (h' : lex mode word rest = [.word (w ++ b :: rest)]) :
        w.length + 1 ≤ (word.getD []).length + mode.pending := by
      have hle := lex_length h'
      rw [List.length_append, List.length_cons] at hle
      omega
    have hquoted {mode : Mode} (hpending : mode.pending = 0)
        (h' : lex mode (push (some w) []) rest = [.word (w ++ b :: rest)]) : False := by
      have hle := hlength _ _ h'
      rw [length_push, hpending, Option.getD_some, List.length_nil] at hle
      omega
    have hended {later : List Token} (h' : flush (some w) ++ later = [.word (w ++ b :: rest)]) : False := by
      rcases flush_append_eq h' with ⟨hw, -⟩ | ⟨hnone, -⟩
      · simp at hw
      · contradiction
    by_cases hplain : isPlain b = true
    · rw [lex_plain_cons hplain] at h
      have hrest := ih (w := w ++ [b]) (by rw [h, List.append_assoc, List.singleton_append])
      rcases hrest with hrest | ⟨t, rfl, ht⟩
      · exact .inl (List.forall_mem_cons.mpr ⟨hplain, hrest⟩)
      · exact .inr ⟨b :: t, rfl, List.forall_mem_cons.mpr ⟨hplain, ht⟩⟩
    · rw [lex] at h
      split at h
      · next hbackslash =>
        rw [hbackslash] at h ⊢
        cases rest with
        | nil => exact .inr ⟨[], rfl, fun c hc => absurd hc List.not_mem_nil⟩
        | cons c rest =>
          have hshort {word : Option (List UInt8)} (hword : (word.getD []).length ≤ w.length + 1)
              (h' : lex .unquoted word rest = [.word (w ++ 92 :: c :: rest)]) : False := by
            have hle := lex_length h'
            simp only [List.length_append, List.length_cons, Mode.pending] at hle
            omega
          rw [lex] at h
          split at h
          · exact (hshort (Nat.le_succ _) h).elim
          · exact (hshort (length_push (some w) [c]).le h).elim
      split at h
      · exact (hquoted rfl h).elim
      split at h
      · exact (hquoted rfl h).elim
      split at h
      · exact (hended h).elim
      split at h
      · exact (hended h).elim
      · next hbackslash hsingle hdouble hblank hoperator =>
        exact absurd (isPlain_iff.mpr ⟨Bool.eq_false_of_not_eq_true hblank,
          Bool.eq_false_of_not_eq_true hoperator, hbackslash, hsingle, hdouble⟩) hplain

/-- A text completes the word in progress as it is exactly if it is literal. -/
theorem lex_eq_word_iff (w s : List UInt8) :
    lex .unquoted (some w) s = [.word (w ++ s)] ↔ Literal s :=
  ⟨literal_of_lex, fun h => lex_literal h w⟩

/-- Plain bytes in front of a blank are a word, unless they begin a comment. -/
theorem lex_word {b : UInt8} {s : List UInt8} (hb : isPlain b = true) (hcomment : b ≠ 35)
    (hs : ∀ c ∈ s, isPlain c = true) (rest : List UInt8) :
    lex .unquoted none (b :: s ++ 32 :: rest) = .word (b :: s) :: lex .unquoted none rest := by
  rw [List.cons_append, lex_plain_start hb hcomment, lex_plain hs]
  rfl

/-- A command with one operand that does not begin a comment is recognized exactly if the rest of the
operand is literal. -/
theorem simpleCommand_operand_iff {b : UInt8} {name : List UInt8} (hb : isPlain b = true)
    (hcomment : b ≠ 35) (hname : ∀ c ∈ name, isPlain c = true) {d : UInt8} (hd : isPlain d = true)
    (hoperand : d ≠ 35) (s : List UInt8) :
    simpleCommand (b :: name ++ 32 :: d :: s) = some [b :: name, d :: s] ↔ Literal s := by
  rw [simpleCommand, words_eq_some_iff, lex_word hb hcomment hname, lex_plain_start hd hoperand,
    List.map_cons, List.map_singleton, List.cons.injEq, and_iff_right rfl]
  exact lex_eq_word_iff [d] s

end ShellWords
