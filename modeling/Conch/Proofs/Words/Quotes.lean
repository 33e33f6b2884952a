import Conch.Proofs.Words.Spellings

/-!
# Quoted text

A text can be written in quotes of either kind.  Between single quotes a quote is left,
written behind a backslash and entered again; between double quotes the characters with a
meaning there get a backslash, which is one of the spellings of the text (`spells_double`).
Every pass over a word keeps to the text: the lexer reads the quoted text to its end
(`readWord_written`), the fragments are those of `Quote.parts` (`parse_written`), and without
its quotes it is the text again (`addLiteral_single`, `Spells.unescapeOnto`).
-/

namespace Conch

inductive Quote where
  | single
  | double
  deriving DecidableEq, Repr

namespace Quote

open Syntax

def mark : Quote → Char
  | single => '\''
  | double => '"'

/-- What is written for a character between the quotes. -/
def escape : Quote → Char → List Char
  | single, c => if c = '\'' then ['\'', '\\', '\'', '\''] else [c]
  | double, c => if c = '$' || c = '"' || c = '\\' || c = '\x60' then ['\\', c] else [c]

def escaped (quote : Quote) (text : List Char) : List Char := text.flatMap quote.escape

def written (quote : Quote) (text : List Char) : List Char :=
  quote.mark :: (quote.escaped text ++ [quote.mark])

/-- The text in quotes. -/
def write (quote : Quote) (text : String) : String := String.ofList (quote.written text.toList)

/-- The fragments of a word of some letters with a quoted text after them. -/
def parts (quote : Quote) (letters text : List Char) : List Node :=
  match quote with
  | single => [.literal (String.ofList (letters ++ single.written text))]
  | double =>
      Word.flush letters.reverse [] ++ [.quoted (Word.flush (double.escaped text).reverse [])]

@[simp] theorem escaped_nil (quote : Quote) : quote.escaped [] = [] := rfl

@[simp] theorem escaped_cons (quote : Quote) (c : Char) (text : List Char) :
    quote.escaped (c :: text) = quote.escape c ++ quote.escaped text := rfl

theorem escape_single_of_ne {c : Char} (h : c ≠ '\'') : single.escape c = [c] := if_neg h

/-- The two ways in which a character is written between double quotes. -/
theorem escape_double (c : Char) :
    (double.escape c = ['\\', c] ∧ (c = '$' ∨ c = '"' ∨ c = '\\' ∨ c = '\x60')) ∨
      (double.escape c = [c] ∧ c ≠ '$' ∧ c ≠ '"' ∧ c ≠ '\\' ∧ c ≠ '\x60') := by
  by_cases h : c = '$' ∨ c = '"' ∨ c = '\\' ∨ c = '\x60'
  · exact .inl ⟨if_pos (by simpa [or_assoc] using h), h⟩
  · exact .inr ⟨if_neg (by simpa [or_assoc] using h), by simpa [not_or] using h⟩

theorem spells_double (text : List Char) : Spells (double.escaped text) text := by
  induction text with
  | nil => exact .nil
  | cons c text ih =>
      rw [escaped_cons]
      rcases escape_double c with ⟨hescape, hc⟩ | ⟨hescape, hdollar, hquote, hslash, -⟩
      · rw [hescape]
        exact .escaped ih hc
      · rw [hescape]
        exact .plain ih hquote hslash fun hc => absurd hc hdollar

/-! ## Reading to the end of the quotes -/

def bracket : Quote → Cursor.Bracket
  | single => .single
  | double => .double

theorem readWord_escape_single (c : Char) (seen more : List Char) (position : Position) :
    ∃ position', Cursor.readWord [.single] seen (single.escape c ++ more) position =
      Cursor.readWord [.single] ((single.escape c).reverse ++ seen) more position' := by
  by_cases hc : c = '\''
  · -- out of the quotes, over the escaped quote and into the quotes again
    subst hc
    refine ⟨(((position.after '\'').after '\\').after '\'').after '\'', ?_⟩
    change Cursor.readWord [.single] seen ('\'' :: '\\' :: '\'' :: '\'' :: more) position = _
    rw [Cursor.readWord_cons]
    change Cursor.readWord [] _ ('\\' :: '\'' :: '\'' :: more) _ = _
    rw [Cursor.readWord_cons]
    change Cursor.readWord [] _ ('\'' :: more) _ = _
    rw [Cursor.readWord_cons]
    rfl
  · have hstep : Cursor.step [.single] c more.head? = .one [.single] :=
      congrArg Cursor.Step.one (if_neg hc)
    rw [escape_single_of_ne hc]
    refine ⟨position.after c, ?_⟩
    change Cursor.readWord [.single] seen (c :: more) position = _
    rw [Cursor.readWord_cons, hstep]
    rfl

theorem readWord_escaped (quote : Quote) (text seen more : List Char) (position : Position) :
    ∃ position', Cursor.readWord [quote.bracket] seen (quote.escaped text ++ quote.mark :: more)
        position =
      Cursor.readWord [quote.bracket] ((quote.escaped text).reverse ++ seen) (quote.mark :: more)
        position' := by
  cases quote with
  | double => exact (spells_double text).readWord seen more position
  | single =>
      induction text generalizing seen position with
      | nil => exact ⟨position, rfl⟩
      | cons c text ih =>
          obtain ⟨middle, hfirst⟩ :=
            readWord_escape_single c seen (single.escaped text ++ single.mark :: more) position
          obtain ⟨finish, hrest⟩ := ih ((single.escape c).reverse ++ seen) middle
          refine ⟨finish, ?_⟩
          rw [escaped_cons, List.append_assoc]
          refine hfirst.trans (hrest.trans ?_)
          simp

/-- Letters and the quoted text after them are read up to a boundary. -/
theorem readWord_written (quote : Quote) {letters more : List Char}
    (hletters : ∀ c ∈ letters, isPlain c = true) (hmore : more.head?.all isWordBoundary = true)
    (text seen : List Char) (position : Position) :
    ∃ finish, Cursor.readWord [] seen (letters ++ quote.written text ++ more) position =
      .ok (seen.reverse ++ (letters ++ quote.written text), ⟨more, finish⟩) := by
  have hopen : ∀ next, Cursor.step [] quote.mark next = .one [quote.bracket] := by
    cases quote <;> exact fun _ => rfl
  have hclose : ∀ next, Cursor.step [quote.bracket] quote.mark next = .one [] := by
    cases quote <;> exact fun _ => rfl
  have henclosed := Cursor.readWord_enclosed hopen hclose
    (fun seen position => quote.readWord_escaped text seen more position) hletters hmore seen
    position
  simpa [written] using henclosed

/-! ## Fragments -/

section Fragments

variable {parse : Word.ProgramParser} {place : List Char → Position} {found : List Node}

/-- A text in single quotes goes on with what stands in the quotes already. -/
theorem fragments_single (text inner letters : List Char) (hinner : ∀ c ∈ inner, c ≠ '\'') :
    Word.fragments parse place letters found
        ('\'' :: (inner ++ (single.escaped text ++ ['\'']))) =
      .ok (Word.flush ((inner ++ (single.escaped text ++ ['\''])).reverse ++ '\'' :: letters)
        found).reverse := by
  induction text generalizing inner letters with
  | nil =>
      rw [escaped_nil, List.nil_append, Word.fragments_quote inner [] hinner, Word.fragments_nil]
      simp [List.reverseAux_eq]
  | cons c text ih =>
      by_cases hc : c = '\''
      · subst hc
        have hescape : single.escape '\'' = ['\'', '\\', '\'', '\''] := rfl
        have hnext := ih [] ('\'' :: '\\' :: ('\'' :: inner.reverseAux ('\'' :: letters))) (by simp)
        rw [List.nil_append] at hnext
        rw [escaped_cons, hescape]
        simp only [List.cons_append, List.nil_append]
        rw [Word.fragments_quote inner _ hinner, Word.fragments_escape, hnext]
        simp [List.reverseAux_eq]
      · have hnext := ih (inner ++ [c]) letters
          (by simpa [or_imp, forall_and] using ⟨hinner, hc⟩)
        rw [escaped_cons, escape_single_of_ne hc]
        simpa using hnext

/-- A word of letters and a quoted text has one fragment for each of the two. -/
theorem parse_written (quote : Quote) {letters : List Char}
    (hletters : ∀ c ∈ letters, isPlain c = true) (text : List Char) (position : Position) :
    Word.parse parse position (letters ++ quote.written text) = .ok (quote.parts letters text) := by
  cases quote with
  | single =>
      rw [Word.parse, Word.fragments_letters hletters, List.append_nil]
      refine (fragments_single text [] letters.reverse (by simp)).trans ?_
      simp [parts, written, mark, Word.flush]
  | double => exact (spells_double text).parse_inQuotes hletters position

end Fragments

end Quote

/-! ## Without the quotes -/

namespace Fields

theorem addQuoted_append (fields : Fields) (first second : String) :
    (fields.addQuoted first).addQuoted second = fields.addQuoted (first ++ second) := by
  simp [addQuoted, Pattern.escape, String.append_assoc]

theorem addLiteral_nil (fields : Fields) : fields.addLiteral [] [] = fields := by
  rw [addLiteral]
  simp [addUnquoted]

theorem addLiteral_quote (fields : Fields) (inner rest : List Char) (h : ∀ c ∈ inner, c ≠ '\'') :
    fields.addLiteral [] ('\'' :: (inner ++ '\'' :: rest)) =
      (fields.addQuoted (String.ofList inner)).addLiteral [] rest := by
  have hall : ∀ c ∈ inner, (c ≠ '\'' : Bool) = true := fun c hc => by simpa using h c hc
  rw [addLiteral, List.takeWhile_append_of_pos hall, List.dropWhile_append_of_pos hall]
  simp [addUnquoted]

theorem addLiteral_escape (fields : Fields) {c : Char} (h : c ≠ '\n') (rest : List Char) :
    fields.addLiteral [] ('\\' :: c :: rest) =
      (fields.addQuoted (String.singleton c)).addLiteral [] rest := by
  rw [addLiteral]
  · simp [addUnquoted]
  · exact h

end Fields

namespace Quote

open Syntax

theorem addLiteral_single (fields : Fields) (text inner : List Char)
    (hinner : ∀ c ∈ inner, c ≠ '\'') :
    fields.addLiteral [] ('\'' :: (inner ++ (single.escaped text ++ ['\'']))) =
      fields.addQuoted (String.ofList (inner ++ text)) := by
  induction text generalizing inner fields with
  | nil =>
      rw [escaped_nil, List.nil_append, Fields.addLiteral_quote fields inner [] hinner,
        Fields.addLiteral_nil, List.append_nil]
  | cons c text ih =>
      by_cases hc : c = '\''
      · subst hc
        have hescape : single.escape '\'' = ['\'', '\\', '\'', '\''] := rfl
        have hnext := ih ((fields.addQuoted (String.ofList inner)).addQuoted "'") [] (by simp)
        rw [List.nil_append] at hnext
        rw [escaped_cons, hescape]
        simp only [List.cons_append, List.nil_append]
        rw [Fields.addLiteral_quote fields inner _ hinner,
          Fields.addLiteral_escape _ (by decide)]
        refine hnext.trans ?_
        simp only [Fields.addQuoted_append]
        exact congrArg fields.addQuoted (String.toList_inj.mp (by simp))
      · have hnext := ih fields (inner ++ [c])
          (by simpa [or_imp, forall_and] using ⟨hinner, hc⟩)
        rw [escaped_cons, escape_single_of_ne hc]
        simpa using hnext

end Quote

end Conch
