import Conch.Proofs.Grammar.Repetition
import Conch.Proofs.Tree.Shape

/-!
# Reading simple commands

Words, redirections and the simple commands made of them.  What the parser of
programs makes of the text of a word is a hypothesis here (`Node.ReadAs`), so that
these rules serve both words without expansions and words that hold programs.
-/

namespace Conch.Syntax

namespace Symbol

/-- The symbol can follow a command: it neither lengthens one nor makes its word the head of a
function. -/
def endsCommand (s : Symbol) : Bool :=
  match s.kind with
  | .op token => !token.isRedirection && token != .leftParen
  | .newline => true
  | _ => false

def endsPipeline (s : Symbol) : Bool := s.endsCommand && s.kind != .op .pipe

def endsList (s : Symbol) : Bool :=
  s.endsPipeline && s.kind != .op .andAnd && s.kind != .op .orOr

end Symbol

/-- The text of a word is read as the word with the fragments that `f` gives. -/
def Node.ReadAs (program : Word.ProgramParser) (f : List Node → List Node) (n : Node) : Prop :=
  ∃ parts, n = .word parts ∧
    ∀ position, Word.parse program position n.render.toList = .ok (f parts)

/-- Every word of some pieces is read as `f` gives. -/
def Piece.WordsReadAs (program : Word.ProgramParser) (f : List Node → List Node)
    (pieces : List Piece) : Prop :=
  ∀ opensArm n, Piece.word opensArm n ∈ pieces → n.ReadAs program f

theorem Piece.symbols_layouts {between : List Piece} (hbetween : Piece.symbols between = [])
    (nodes : List Node) :
    Piece.symbols (Node.layouts between nodes) =
      nodes.flatMap (fun n => Piece.symbols n.layout) := by
  have hmore : ∀ rest : List Node, Piece.symbols (Node.layoutMore between rest) =
      rest.flatMap (fun n => Piece.symbols n.layout) := by
    intro rest
    induction rest with
    | nil => rfl
    | cons node rest ih => simp [Node.layoutMore, hbetween, ih]
  cases nodes with
  | nil => rfl
  | cons node rest => simp [Node.layouts, hmore]

theorem Token.symbol_kind_of_isRedirection {op : Token} (h : op.isRedirection = true) :
    op.symbol.kind = .op op := by
  cases op <;> first | rfl | simp [Token.isRedirection] at h

theorem digitsValue_toString (n : Nat) : digitsValue (toString n) = n := by
  have hdigits : (toString n).toList = Nat.toDigits 10 n := Nat.toList_repr
  calc
    digitsValue (toString n) = Nat.ofDigitChars 10 (Nat.toDigits 10 n) 0 := by
      rw [digitsValue, hdigits, Nat.ofDigitChars]
      simp only [Nat.mul_comm]
    _ = n := Nat.ofDigitChars_ten_toDigits

namespace Grammar

variable {program : Word.ProgramParser} {f : List Node → List Node}

theorem leads_wordOf {n : Node} (h : n.ReadAs program f) (lexeme : Lexeme)
    (hlexeme : lexeme.symbol = ⟨.word, n.render⟩) (rest : List Lexeme) (finish : Position) :
    wordOf program lexeme ⟨rest, finish⟩ = .ok (n.mapWords f, ⟨rest, finish⟩) := by
  obtain ⟨parts, rfl, hparts⟩ := h
  have htext : lexeme.text = (Node.word parts).render := congrArg Symbol.text hlexeme
  have hread : lift (Word.parse program lexeme.position lexeme.text.toList)
      ⟨rest, finish⟩ = .ok (f parts, ⟨rest, finish⟩) := by
    rw [htext, hparts]
    rfl
  exact bind_ok hread

theorem leads_anyWord {n : Node} (h : n.ReadAs program f) :
    Leads (anyWord program) [⟨.word, n.render⟩] (pure (n.mapWords f)) always := by
  refine leads_of_cons (fun lexeme rest finish hlexeme => ?_)
  have hkind : (lexeme.kind == LexemeKind.word) = true := by
    have hkind : lexeme.kind = .word := congrArg Symbol.kind hlexeme
    simp [hkind]
  have hrun : anyWord program ⟨lexeme :: rest, finish⟩ =
      (if lexeme.kind == LexemeKind.word then do
          advance
          wordOf program lexeme
        else unexpected : Grammar Node) ⟨lexeme :: rest, finish⟩ := rfl
  rw [hrun, if_pos hkind]
  exact leads_wordOf h lexeme hlexeme rest finish

theorem leads_redirection {descriptor : Option Nat} {op : Token} {target : Node}
    (hop : op.isRedirection = true) (htarget : target.ReadAs program f) :
    Leads (redirection program descriptor) [op.symbol, ⟨.word, target.render⟩]
      (pure (.redirection descriptor op (target.mapWords f))) always := by
  have hword : Leads (do return Node.redirection descriptor op (← anyWord program))
      [⟨.word, target.render⟩] (pure (.redirection descriptor op (target.mapWords f))) always :=
    (leads_anyWord htarget).bindPure rfl
  have hfront : Leads (redirection program descriptor) [op.symbol]
      (do return Node.redirection descriptor op (← anyWord program)) always := by
    refine leads_of_cons (fun lexeme rest finish hlexeme => ?_)
    have hlexemeKind : lexeme.kind = .op op := by
      rw [← Token.symbol_kind_of_isRedirection hop, ← hlexeme]
      rfl
    rw [redirection, bind_ok (a := some lexeme) (show current ⟨lexeme :: rest, finish⟩ = .ok (_, ⟨lexeme :: rest, finish⟩) from rfl), Option.map_some, hlexemeKind]
    simp only [hop, if_true]
    rfl
  exact hfront.trans hword (fun _ _ => trivial)

theorem argument_run (program : Word.ProgramParser) (lexeme : Lexeme) (rest : List Lexeme)
    (finish : Position) :
    argument program ⟨lexeme :: rest, finish⟩ =
      (match lexeme.kind with
        | .word => do
            advance
            return some (← wordOf program lexeme)
        | .descriptor => do
            advance
            let value := digitsValue lexeme.text
            if value < descriptorLimit then return some (← redirection program (some value))
            else failHere (.badDescriptor lexeme.text)
        | .op token =>
            if token.isRedirection then return some (← redirection program none)
            else return none
        | .newline => return none : Grammar (Option Node)) ⟨lexeme :: rest, finish⟩ := rfl

theorem leads_argument {n : Node} (hn : n.IsArgument)
    (hwords : Piece.WordsReadAs program f n.layout) :
    Leads (argument program) (Piece.symbols n.layout) (pure (some (n.mapWords f))) always := by
  cases n with
  | word parts =>
      have hread := hwords false (.word parts) (by simp [Node.layout])
      refine leads_of_cons (fun lexeme rest finish hlexeme => ?_)
      have hkind : lexeme.kind = .word := congrArg Symbol.kind hlexeme
      rw [argument_run, hkind]
      exact bind_ok (leads_wordOf hread lexeme hlexeme rest finish)
  | redirection descriptor op target =>
      obtain ⟨hdescriptor, hop, htarget⟩ := hn
      have htargetLayout : target.layout = [.word false target] := by
        cases target <;> first | rfl | exact htarget.elim
      have hread : target.ReadAs program f := by
        refine hwords false target ?_
        simp [Node.layout, htargetLayout]
      have hoperator : Leads (do return some (← redirection program descriptor))
          [op.symbol, ⟨.word, target.render⟩]
          (pure (some (.redirection descriptor op (target.mapWords f)))) always :=
        (leads_redirection hop hread).bindPure rfl
      cases descriptor with
      | none =>
          intro items rest finish hitems hrest
          have hsymbols : items.map Lexeme.symbol = [op.symbol, ⟨.word, target.render⟩] := by
            simpa [Node.layout, htargetLayout] using hitems
          obtain ⟨lexeme, others, rfl, hlexeme, _⟩ := List.map_eq_cons_iff.mp hsymbols
          have hkind : lexeme.kind = .op op := by
            rw [← Token.symbol_kind_of_isRedirection hop, ← hlexeme]
            rfl
          have hsame : argument program ⟨lexeme :: others ++ rest, finish⟩ =
              (do return some (← redirection program none) : Grammar (Option Node))
                ⟨lexeme :: others ++ rest, finish⟩ := by
            rw [List.cons_append, argument_run, hkind]
            simp only [hop, if_true]
          rw [hsame]
          exact hoperator (lexeme :: others) rest finish hsymbols hrest
      | some value =>
          have hvalue : value < descriptorLimit := hdescriptor value rfl
          have hdigits : Leads (argument program) [⟨.descriptor, toString value⟩]
              (do return some (← redirection program (some value))) always := by
            refine leads_of_cons (fun lexeme rest finish hlexeme => ?_)
            have hkind : lexeme.kind = .descriptor := congrArg Symbol.kind hlexeme
            have htext : lexeme.text = toString value := congrArg Symbol.text hlexeme
            rw [argument_run, hkind, htext]
            simp only [digitsValue_toString, if_pos hvalue]
            rfl
          have hboth := hdigits.trans hoperator (fun _ _ => trivial)
          simpa [Node.layout, htargetLayout, Node.mapWords] using hboth
  | _ => exact hn.elim

/-- What ends the arguments of a simple command. -/
theorem leads_noArgument :
    Leads (argument program) [] (pure none) (endOr Symbol.endsCommand) := by
  refine leads_of_front (fun rest finish h => ?_)
  cases rest with
  | nil => rfl
  | cons lexeme rest =>
      have hends : lexeme.symbol.endsCommand = true := by simpa using h
      rw [argument_run]
      cases hkind : lexeme.kind with
      | op token =>
          have htoken : token.isRedirection = false := by
            simp [Symbol.endsCommand, Lexeme.symbol, hkind] at hends
            exact hends.1
          simp only [htoken]
          rfl
      | newline => rfl
      | _ => simp [Symbol.endsCommand, Lexeme.symbol, hkind] at hends

theorem symbols_argument_ne_nil {n : Node} (hn : n.IsArgument) :
    Piece.symbols n.layout ≠ [] := by
  cases n with
  | word parts => simp [Node.layout]
  | redirection descriptor op target => cases descriptor <;> simp [Node.layout]
  | _ => exact hn.elim

theorem collects_arguments {args : List Node}
    (hargs : ∀ n ∈ args, n.IsArgument ∧ Piece.WordsReadAs program f n.layout) :
    Collects (argument program) (endOr Symbol.endsCommand)
      (args.flatMap (fun n => Piece.symbols n.layout)) (args.map (Node.mapWords f)) := by
  induction args with
  | nil => exact .nil leads_noArgument
  | cons arg rest ih =>
      obtain ⟨harg, hwords⟩ := hargs arg (by simp)
      exact .cons (leads_argument harg hwords) (symbols_argument_ne_nil harg)
        (fun _ _ => trivial) (ih (fun n hn => hargs n (by simp [hn])))

theorem leads_simpleCommand {args : List Node} (hne : args ≠ [])
    (hargs : ∀ n ∈ args, n.IsArgument ∧ Piece.WordsReadAs program f n.layout) :
    Leads (simpleCommand program) (args.flatMap (fun n => Piece.symbols n.layout))
      (pure (.command (args.map (Node.mapWords f)) false))
      (endOr Symbol.endsCommand) := by
  refine (leads_many (collects_arguments hargs)).bindPure ?_
  cases args with
  | nil => exact absurd rfl hne
  | cons arg rest => rfl

/-! ## Choosing the command -/

theorem commandOn_run (below : Option Level) (program : Word.ProgramParser)
    (stream : Lexemes) :
    commandOn below program stream =
      match compound? stream.items with
      | some compound => nested below compound stream
      | none =>
          if stream.items.head?.any startsSimple then simpleCommand program stream
          else (unexpected : Grammar Node) stream := by
  change (match compound? stream.items with
    | some compound => nested below compound
    | none => do if (← current).any startsSimple then simpleCommand program else unexpected)
      stream = _
  cases compound? stream.items with
  | some compound => rfl
  | none =>
      change (if stream.items.head?.any startsSimple then simpleCommand program
        else unexpected : Grammar Node) stream = _
      cases stream.items.head?.any startsSimple <;> rfl

theorem startsFunction_eq_false {lexeme : Lexeme} {rest : List Lexeme}
    (h : (frontOf rest).all (fun s => s.kind != .op .leftParen) = true) :
    startsFunction (lexeme :: rest) = false := by
  match rest with
  | [] => rfl
  | [_] => rfl
  | second :: third :: _ =>
      have hsecond : (second.kind == LexemeKind.op .leftParen) = false := by
        simpa [Lexeme.symbol, bne] using h
      simp [startsFunction, hsecond]

theorem argument_front {n : Node} (hn : n.IsArgument) :
    ∃ s t, Piece.symbols n.layout = s :: t ∧ s.kind ≠ .op .leftParen := by
  cases n with
  | word parts => exact ⟨⟨.word, (Node.word parts).render⟩, [], rfl, by simp⟩
  | redirection descriptor op target =>
      cases descriptor with
      | none =>
          have hkind := Token.symbol_kind_of_isRedirection hn.2.1
          refine ⟨op.symbol, Piece.symbols target.layout, rfl, ?_⟩
          rw [hkind]
          intro hop
          cases hop
          exact Bool.noConfusion hn.2.1
      | some value =>
          exact ⟨⟨.descriptor, toString value⟩, Piece.symbols (.mark op :: target.layout), rfl,
            by simp⟩
  | _ => exact hn.elim

theorem compound?_of_kind {lexeme : Lexeme} {rest : List Lexeme} (hword : lexeme.kind ≠ .word)
    (hparen : lexeme.kind ≠ .op .leftParen) : compound? (lexeme :: rest) = none := by
  cases hkind : lexeme.kind with
  | op token =>
      cases token <;> simp only [compound?, hkind]
      exact absurd hkind hparen
  | word => exact absurd hkind hword
  | _ => simp only [compound?, hkind]

theorem compound?_of_mayStart {lexeme : Lexeme} {rest : List Lexeme} (hword : lexeme.kind = .word)
    (hstart : mayStart lexeme.text = true) (hfunction : startsFunction (lexeme :: rest) = false) :
    compound? (lexeme :: rest) = none ∧ startsSimple lexeme = true := by
  unfold mayStart at hstart
  unfold compound? startsSimple Lexeme.reserved?
  simp only [hword]
  cases hreserved : Token.reserved? lexeme.text with
  | none => simp [hfunction]
  | some token =>
      have htoken : token = .inWord := by simpa [hreserved] using hstart
      subst htoken
      simp [hfunction, Token.neverStarts]

/-- A simple command is read as one: its first word is not reserved and no parenthesis follows
it. -/
theorem compound?_simple {args : List Node} (hargs : Node.Arguments args) {items rest : List Lexeme}
    (hitems : items.map Lexeme.symbol = args.flatMap (fun n => Piece.symbols n.layout))
    (hrest : endOr Symbol.endsCommand (frontOf rest)) :
    compound? (items ++ rest) = none ∧ (items ++ rest).head?.any startsSimple = true := by
  obtain ⟨hne, harguments, hfirst⟩ := hargs
  cases args with
  | nil => exact absurd rfl hne
  | cons arg others =>
      have harg := harguments arg (by simp)
      cases arg with
      | word parts =>
          obtain ⟨lexeme, tail, rfl, hlexeme, htail⟩ := List.map_eq_cons_iff.mp hitems
          have hkind : lexeme.kind = .word := congrArg Symbol.kind hlexeme
          have htext : lexeme.text = (Node.word parts).render := congrArg Symbol.text hlexeme
          have hstart : mayStart lexeme.text = true := by
            rw [htext]
            exact hfirst parts rfl
          have hfront : (frontOf (tail ++ rest)).all (fun s => s.kind != .op .leftParen) = true := by
            rw [frontOf_append, htail]
            cases others with
            | nil =>
                cases hx : frontOf rest with
                | none => rfl
                | some s =>
                    have hends : s.endsCommand = true := by simpa [hx] using hrest
                    cases hskind : s.kind with
                    | op token => simp_all [Symbol.endsCommand]
                    | _ => simp [hskind]
            | cons second _ =>
                obtain ⟨s, t, hsymbols, hs⟩ := argument_front (harguments second (by simp))
                simp [hsymbols, bne, hs]
          have hsimple := compound?_of_mayStart hkind hstart (startsFunction_eq_false hfront)
          exact ⟨hsimple.1, by simpa using hsimple.2⟩
      | redirection descriptor op target =>
          obtain ⟨_, hop, _⟩ := harg
          cases descriptor with
          | none =>
              obtain ⟨lexeme, tail, rfl, hlexeme, _⟩ := List.map_eq_cons_iff.mp hitems
              have hkind : lexeme.kind = .op op := by
                rw [← Token.symbol_kind_of_isRedirection hop, ← hlexeme]
                rfl
              have hparen : lexeme.kind ≠ .op .leftParen := by
                rw [hkind]
                intro h
                cases h
                exact Bool.noConfusion hop
              refine ⟨compound?_of_kind (by simp [hkind]) hparen, ?_⟩
              simpa [startsSimple, hkind] using hop
          | some value =>
              obtain ⟨lexeme, tail, rfl, hlexeme, _⟩ := List.map_eq_cons_iff.mp hitems
              have hkind : lexeme.kind = .descriptor := congrArg Symbol.kind hlexeme
              refine ⟨compound?_of_kind (by simp [hkind]) (by simp [hkind]), ?_⟩
              simp [startsSimple, hkind]
      | _ => exact harg.elim

theorem leads_command_simple (below : Option Level) {args : List Node}
    (hargs : Node.Arguments args)
    (hwords : ∀ n ∈ args, Piece.WordsReadAs program f n.layout) :
    Leads (commandOn below program) (args.flatMap (fun n => Piece.symbols n.layout))
      (pure (.command (args.map (Node.mapWords f)) false))
      (endOr Symbol.endsCommand) := by
  intro items rest finish hitems hrest
  obtain ⟨hcompound, hsimple⟩ := compound?_simple hargs hitems hrest
  rw [commandOn_run]
  simp only [hcompound, hsimple, if_true]
  exact leads_simpleCommand hargs.1 (fun n hn => ⟨hargs.2.1 n hn, hwords n hn⟩) items rest finish
    hitems hrest

/-- A compound command that the front lexemes choose is read on the level below. -/
theorem leads_command_compound {level : Level} {compound : Level → Grammar Node}
    {s : List Symbol} {n : Node} {F : Option Symbol → Prop}
    (hcompound : ∀ (items rest : List Lexeme), items.map Lexeme.symbol = s →
      compound? (items ++ rest) = some compound)
    (h : Leads (compound level) s (pure n) F) :
    Leads (commandOn (some level) program) s (pure n) F := by
  intro items rest finish hitems hrest
  rw [commandOn_run]
  simp only [hcompound items rest hitems]
  exact h items rest finish hitems hrest

end Grammar

end Conch.Syntax
