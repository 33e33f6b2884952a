import Conch.Proofs.Grammar.Commands

/-!
# Reading lists of statements

Pipelines and lists extend a first command from the left, and a statement list reads
its statements up to a token that closes it.  In a rendering a list is either closed
by a semicolon of its own, before a reserved word, or ends at a parenthesis, a
doubled semicolon or the end of the text.
-/

namespace Conch.Syntax

/-- The tokens at which a list of statements can end. -/
def Token.closes (token : Token) : Bool :=
  token.neverStarts || token == .doubleSemicolon || token == .rightParen

/-- The symbol can stand at the front of a statement. -/
def Symbol.starts (s : Symbol) : Bool :=
  s.kind != .newline && s.kind != .op .semicolon && !s.token?.any Token.closes

/-- The symbols of a tree begin like a statement. -/
def Node.Starts (n : Node) : Prop :=
  ∃ s t, Piece.symbols n.layout = s :: t ∧ s.starts = true

namespace Grammar

variable {command : Grammar Node} {f : List Node → List Node} {n left right : Node}

/-! ## Pipelines and lists -/

def pipeStep (command : Grammar Node) (left : Node) : Grammar (Option Node) := do
  if ← atOperator .pipe then
    advance
    skipNewlines
    return some (.binary .pipe left (← command))
  else return none

def listStep (command : Grammar Node) (left : Node) : Grammar (Option Node) := do
  match ← listOperator with
  | some token =>
      advance
      skipNewlines
      return some (.binary token left (← pipeline command))
  | none => return none

theorem pipeline_eq (command : Grammar Node) :
    pipeline command = (do
      let first ← command
      extend (pipeStep command) (← remaining) first) := rfl

theorem andOrList_eq (command : Grammar Node) :
    andOrList command = (do
      let first ← pipeline command
      extend (listStep command) (← remaining) first) := rfl

def ReadsCommand (command : Grammar Node) (f : List Node → List Node) (n : Node) : Prop :=
  Leads command (Piece.symbols n.layout) (pure (n.mapWords f)) (endOr Symbol.endsCommand)

/-- The symbols of a tree are those of a command and of pipes that extend it to the tree. -/
def ReadsPipeline (command : Grammar Node) (f : List Node → List Node) (n : Node) : Prop :=
  ∃ s t first, Piece.symbols n.layout = s ++ t ∧
    Leads command s (pure first) (endOr Symbol.endsCommand) ∧
    Extends (pipeStep command) (endOr Symbol.endsCommand) t first (n.mapWords f)

def ReadsList (command : Grammar Node) (f : List Node → List Node) (n : Node) : Prop :=
  ∃ s t first, Piece.symbols n.layout = s ++ t ∧
    Leads (pipeline command) s (pure first) (endOr Symbol.endsPipeline) ∧
    Extends (listStep command) (endOr Symbol.endsPipeline) t first (n.mapWords f)

theorem Extends.front {α : Type} {step : α → Grammar (Option α)} {F : Option Symbol → Prop}
    {s : List Symbol} {a b : α} (h : Extends step F s a b) (x : Option Symbol) (hx : F x) :
    F (s.head?.or x) := by
  induction h generalizing x with
  | refl a => simpa using hx
  | @tail s t _ _ _ front _ _ hfront hF ih =>
      have := ih (some front) hF
      simpa [List.head?_append, hfront] using this

theorem leads_pipeStep_stop (left : Node) :
    Leads (pipeStep command left) [] (pure none) (endOr Symbol.endsPipeline) := by
  refine leads_of_front (fun rest finish h => ?_)
  have hpipe : (frontOf rest).any (fun s => s.kind == .op .pipe) = false := by
    cases hx : frontOf rest with
    | none => rfl
    | some s => simp_all [Symbol.endsPipeline]
  have hrun := atOperator_run .pipe rest finish
  rw [hpipe] at hrun
  exact bind_ok hrun

theorem listOperator_run (rest : List Lexeme) (finish : Position) :
    listOperator ⟨rest, finish⟩ =
      .ok (match (frontOf rest).map Symbol.kind with
        | some (.op .andAnd) => some .andAnd
        | some (.op .orOr) => some .orOr
        | _ => none, ⟨rest, finish⟩) := by
  cases rest with
  | nil => rfl
  | cons lexeme rest =>
      change (match some lexeme.kind with
        | some (.op .andAnd) => pure (some .andAnd)
        | some (.op .orOr) => pure (some .orOr)
        | _ => pure none : Grammar (Option Token)) ⟨lexeme :: rest, finish⟩ = _
      simp only [frontOf_cons, Option.map_some, Lexeme.symbol]
      split
      · rename_i hkind
        rw [hkind]
        rfl
      · rename_i hkind
        rw [hkind]
        rfl
      · rfl

theorem leads_listStep_stop (left : Node) :
    Leads (listStep command left) [] (pure none) (endOr Symbol.endsList) := by
  refine leads_of_front (fun rest finish h => ?_)
  have hoperator := listOperator_run rest finish
  cases hx : frontOf rest with
  | none =>
      rw [hx] at hoperator
      exact bind_ok hoperator
  | some s =>
      have hends : s.endsList = true := by simpa [hx] using h
      have hnone : (match (some s).map Symbol.kind with
          | some (.op .andAnd) => some Token.andAnd
          | some (.op .orOr) => some Token.orOr
          | _ => none) = none := by
        simp only [Option.map_some]
        split <;> simp_all [Symbol.endsList]
      rw [hx, hnone] at hoperator
      exact bind_ok hoperator

theorem leads_pipeline (h : ReadsPipeline command f n) :
    Leads (pipeline command) (Piece.symbols n.layout) (pure (n.mapWords f))
      (endOr Symbol.endsPipeline) := by
  obtain ⟨s, t, first, hsymbols, hfirst, hextends⟩ := h
  have hweaker : ∀ x, endOr Symbol.endsPipeline x → endOr Symbol.endsCommand x :=
    endOr_mono (fun s hs => by simp_all [Symbol.endsPipeline])
  have hrest := leads_extend_stop hextends (leads_pipeStep_stop (n.mapWords f)) hweaker
  rw [hsymbols, pipeline_eq]
  exact hfirst.bind hrest (fun x hx => hextends.front x (hweaker x hx))

theorem leads_andOrList (h : ReadsList command f n) :
    Leads (andOrList command) (Piece.symbols n.layout) (pure (n.mapWords f))
      (endOr Symbol.endsList) := by
  obtain ⟨s, t, first, hsymbols, hfirst, hextends⟩ := h
  have hweaker : ∀ x, endOr Symbol.endsList x → endOr Symbol.endsPipeline x :=
    endOr_mono (fun s hs => by simp_all [Symbol.endsList])
  have hrest := leads_extend_stop hextends (leads_listStep_stop (n.mapWords f)) hweaker
  rw [hsymbols, andOrList_eq]
  exact hfirst.bind hrest (fun x hx => hextends.front x (hweaker x hx))

theorem ReadsCommand.pipeline (h : ReadsCommand command f n) : ReadsPipeline command f n :=
  ⟨_, [], _, by simp, h, .refl _⟩

theorem ReadsPipeline.list (h : ReadsPipeline command f n) : ReadsList command f n :=
  ⟨_, [], _, by simp, leads_pipeline h, .refl _⟩

/-- An operator of lists or pipelines with its right operand extends the left one. -/
theorem leads_operand {op : Token} {operand : Grammar Node} {G : Option Symbol → Prop}
    (hoperand : Leads operand (Piece.symbols right.layout) (pure (right.mapWords f)) G)
    (hstarts : right.Starts) (left : Node) :
    Leads (do
        advance
        skipNewlines
        return some (Node.binary op left (← operand)))
      (op.symbol :: Piece.symbols right.layout)
      (pure (some (.binary op left (right.mapWords f)))) G := by
  obtain ⟨s, t, hsymbols, hs⟩ := hstarts
  have hnewline : ∀ x, G x →
      endOr (fun s => s.kind != .newline) ((Piece.symbols right.layout).head?.or x) := by
    intro x _
    have hkind : s.kind ≠ .newline := by simp_all [Symbol.starts]
    simp [hsymbols, hkind]
  have hvalue : Leads (do return some (Node.binary op left (← operand)))
      (Piece.symbols right.layout) (pure (some (.binary op left (right.mapWords f)))) G :=
    hoperand.bindPure rfl
  have hrest : Leads (do
        skipNewlines
        return some (Node.binary op left (← operand)))
      (Piece.symbols right.layout) (pure (some (.binary op left (right.mapWords f)))) G :=
    leads_skipNewlines.look hvalue hnewline
  exact (leads_advance op.symbol).bind hrest (fun _ _ => trivial)

theorem ReadsPipeline.binary (hleft : ReadsPipeline command f left)
    (hright : ReadsCommand command f right) (hstarts : right.Starts) :
    ReadsPipeline command f (.binary .pipe left right) := by
  obtain ⟨s, t, first, hsymbols, hfirst, hextends⟩ := hleft
  refine ⟨s, t ++ Token.pipe.symbol :: Piece.symbols right.layout, first, ?_, hfirst, ?_⟩
  · simp [Node.layout, hsymbols]
  · refine .tail hextends ?_ (rfl : _ = some Token.pipe.symbol) (by decide)
    have hpipe : ∀ x, endOr Symbol.endsCommand x →
        (((Token.pipe.symbol :: Piece.symbols right.layout).head?.or x).any
          (fun s => s.kind == .op .pipe)) = true := by
      intro x _
      rfl
    exact (leads_atOperator .pipe true).look (leads_operand hright hstarts _) hpipe

theorem ReadsList.binary {op : Token} (hop : op = .andAnd ∨ op = .orOr)
    (hleft : ReadsList command f left) (hright : ReadsPipeline command f right)
    (hstarts : right.Starts) : ReadsList command f (.binary op left right) := by
  obtain ⟨s, t, first, hsymbols, hfirst, hextends⟩ := hleft
  refine ⟨s, t ++ op.symbol :: Piece.symbols right.layout, first, ?_, hfirst, ?_⟩
  · simp [Node.layout, hsymbols]
  · refine .tail hextends ?_ (rfl : _ = some op.symbol) (by rcases hop with rfl | rfl <;> decide)
    have hoperator : Leads listOperator [] (pure (some op)) (fun x => x = some op.symbol) := by
      refine leads_of_front (fun rest finish h => ?_)
      rw [listOperator_run, h]
      rcases hop with rfl | rfl <;> rfl
    exact hoperator.look (leads_operand (leads_pipeline hright) hstarts _) (fun x _ => rfl)

/-! ## Statements -/

/-- A statement as the grammar reads it: a list, or a simple command in the background. -/
def ReadsStatement (command : Grammar Node) (f : List Node → List Node) (n : Node) : Prop :=
  (n.Starts ∧ ReadsList command f n) ∨
    ∃ args, n = .command args true ∧ (Node.command args false).Starts ∧
      ReadsList command f (.command args false)

theorem symbols_background (args : List Node) :
    Piece.symbols (Node.command args true).layout =
      Piece.symbols (Node.command args false).layout ++ [Token.ampersand.symbol] := by
  simp [Node.layout]

theorem ReadsStatement.starts (h : ReadsStatement command f n) : n.Starts := by
  rcases h with ⟨hstarts, _⟩ | ⟨args, rfl, ⟨s, t, hsymbols, hs⟩, _⟩
  · exact hstarts
  · exact ⟨s, t ++ [Token.ampersand.symbol], by simp [symbols_background, hsymbols], hs⟩

theorem leads_current {β : Type} {g : Grammar β} {next : Option Lexeme → Grammar β} {s : Symbol}
    {t : List Symbol} {G : Option Symbol → Prop}
    (h : ∀ lexeme, lexeme.symbol = s → Leads (next (some lexeme)) (s :: t) g G) :
    Leads (current >>= next) (s :: t) g G := by
  intro items rest finish hitems hrest
  obtain ⟨lexeme, others, rfl, hlexeme, _⟩ := List.map_eq_cons_iff.mp hitems
  exact h lexeme hlexeme (lexeme :: others) rest finish hitems hrest

theorem leads_current_front {β : Type} {g : Grammar β} {next : Option Lexeme → Grammar β}
    {F : Option Symbol → Prop}
    (h : ∀ front : Option Lexeme, F (front.map Lexeme.symbol) → Leads (next front) [] g F) :
    Leads (current >>= next) [] g F := by
  intro items rest finish hitems hrest
  obtain rfl := List.map_eq_nil_iff.mp hitems
  exact h rest.head? hrest [] rest finish rfl hrest

/-- What follows a statement of a list: an ampersand, a separator or the end of the list. -/
def endStatement (stops : List Token) (statement : Node) :
    Grammar (Option (Node × Following)) := do
  if ← atOperator .ampersand then
    match statement with
    | .command args _ =>
        advance
        if ← atOperator .semicolon then advance
        return some (.command args true, .more)
    | _ => failHere .backgroundCompound
  else return some (statement, ← endOfStatement stops)

theorem nextStatement_eq (command : Grammar Node) (stops : List Token) :
    nextStatement command stops = (do
      skipNewlines
      let front ← current
      if front.all (stopsAt stops) then return none
      else
        let statement ← andOrList command
        endStatement stops statement) := rfl

variable {stops : List Token}

theorem stopsAt_of_starts (hstops : ∀ t ∈ stops, t.closes = true) {lexeme : Lexeme}
    (h : lexeme.symbol.starts = true) : stopsAt stops lexeme = false := by
  rw [stopsAt, Lexeme.token?_eq]
  cases htoken : lexeme.symbol.token? with
  | none => rfl
  | some token =>
      have hcloses : token.closes = false := by simp_all [Symbol.starts]
      rw [Option.any_some, List.contains_eq_mem, decide_eq_false_iff_not]
      intro hmem
      exact absurd (hstops token hmem) (by simp [hcloses])

theorem endOfStatement_run (stops : List Token) (lexeme : Lexeme) (rest : List Lexeme)
    (finish : Position) :
    endOfStatement stops ⟨lexeme :: rest, finish⟩ =
      (if lexeme.kind == .op .semicolon || lexeme.kind == .newline then do
          advance
          return .more
        else if stopsAt stops lexeme then return .last
        else unexpected : Grammar Following) ⟨lexeme :: rest, finish⟩ := rfl

/-- A semicolon or the end of a line ends a statement. -/
theorem leads_endStatement_separator {s : Symbol}
    (hs : s.kind = .op .semicolon ∨ s.kind = .newline) (stops : List Token) (n : Node) :
    Leads (endStatement stops n) [s] (pure (some (n, .more))) always := by
  have hend : Leads (endOfStatement stops) [s] (pure .more) always := by
    refine leads_of_cons (fun lexeme rest finish hlexeme => ?_)
    have hkind : lexeme.kind = .op .semicolon ∨ lexeme.kind = .newline := by rwa [← hlexeme] at hs
    rw [endOfStatement_run]
    rcases hkind with hkind | hkind <;> rw [hkind] <;> rfl
  refine (leads_atOperator .ampersand false).look (hend.bindPure rfl) (fun x _ => ?_)
  rcases hs with hs | hs <;> simp [hs]

theorem leads_endStatement_ampersand (stops : List Token) (args : List Node) :
    Leads (endStatement stops (.command args false)) [Token.ampersand.symbol]
      (do
        if ← atOperator .semicolon then advance
        return some (.command args true, .more)) always := by
  have hadvance : Leads (do
        advance
        if ← atOperator .semicolon then advance
        return some (Node.command args true, Following.more)) [Token.ampersand.symbol]
      (do
        if ← atOperator .semicolon then advance
        return some (.command args true, .more)) always := by
    simpa using (leads_advance Token.ampersand.symbol).bind (Leads.refl _ always)
      (fun _ _ => trivial)
  exact (leads_atOperator .ampersand true).look hadvance (fun x _ => rfl)

/-- A statement is read by its list, and what follows it is left to `endStatement`. -/
theorem leads_nextStatement {m : Grammar (Option (Node × Following))} {t : List Symbol}
    {G : Option Symbol → Prop} (hstops : ∀ t ∈ stops, t.closes = true) (hstarts : n.Starts)
    (hread : ReadsList command f n) (hend : Leads (endStatement stops (n.mapWords f)) t m G)
    (hnext : ∀ x, G x → endOr Symbol.endsList (t.head?.or x)) :
    Leads (nextStatement command stops) (Piece.symbols n.layout ++ t) m G := by
  obtain ⟨s, symbols, hsymbols, hs⟩ := hstarts
  have hnewline : s.kind ≠ .newline := by simp_all [Symbol.starts]
  rw [nextStatement_eq]
  refine leads_skipNewlines.look ?_ (fun x _ => by simp [hsymbols, hnewline])
  rw [hsymbols, List.cons_append]
  refine leads_current (fun lexeme hlexeme => ?_)
  have hfront : (some lexeme).all (stopsAt stops) = false :=
    stopsAt_of_starts hstops (by rwa [hlexeme])
  rw [← List.cons_append, ← hsymbols]
  simp only [hfront]
  exact (leads_andOrList hread).bind hend hnext

theorem leads_nextStatement_closed (hstops : ∀ t ∈ stops, t.closes = true)
    (h : ReadsStatement command f n) :
    Leads (nextStatement command stops) (Piece.symbols n.layout ++ [Token.semicolon.symbol])
      (pure (some (n.mapWords f, .more))) always := by
  rcases h with ⟨hstarts, hread⟩ | ⟨args, rfl, hstarts, hread⟩
  · exact leads_nextStatement hstops hstarts hread
      (leads_endStatement_separator (.inl rfl) stops _)
      (fun x _ => rfl)
  · have hadvance : Leads (do
          advance
          return some ((Node.command args true).mapWords f, Following.more))
        [Token.semicolon.symbol]
        (pure (some ((Node.command args true).mapWords f, .more))) always :=
      (leads_advance Token.semicolon.symbol).bindPure rfl
    have hsemicolon : Leads (do
          if ← atOperator .semicolon then advance
          return some ((Node.command args true).mapWords f, Following.more))
        [Token.semicolon.symbol]
        (pure (some ((Node.command args true).mapWords f, .more))) always :=
      (leads_atOperator .semicolon true).look hadvance (fun x _ => rfl)
    have hend := (leads_endStatement_ampersand stops (Node.mapAllWords f args)).trans hsemicolon
      (fun _ _ => trivial)
    rw [symbols_background, List.append_assoc]
    exact leads_nextStatement hstops hstarts hread hend (fun x _ => rfl)

/-- Where a list of statements ends without a semicolon of its own. -/
def closesOpen (stops : List Token) (x : Option Symbol) : Prop :=
  x = none ∨ ∃ token ∈ stops, (token = .rightParen ∨ token = .doubleSemicolon) ∧
    x = some token.symbol

theorem leads_endStatement_open (n : Node) :
    Leads (endStatement stops n) [] (pure (some (n, .last))) (closesOpen stops) := by
  have hend : Leads (endOfStatement stops) [] (pure .last) (closesOpen stops) := by
    refine leads_of_front (fun rest finish h => ?_)
    rcases rest with _ | ⟨lexeme, rest⟩
    · rfl
    · rcases h with h | ⟨token, hmem, htoken, hsymbol⟩
      · simp at h
      · have hlexeme : lexeme.symbol = token.symbol := by simpa using hsymbol
        have hstop : stopsAt stops lexeme = true := by
          rw [stopsAt, Lexeme.token?_eq, hlexeme, Token.symbol_token?]
          simpa using hmem
        have hkind : lexeme.kind = token.symbol.kind := congrArg Symbol.kind hlexeme
        rw [endOfStatement_run]
        rcases htoken with rfl | rfl <;> simp [hkind, hstop, Token.symbol, Token.reservedWords]
  have hampersand : ∀ x, closesOpen stops x →
      (([] : List Symbol).head?.or x).any (fun s => s.kind == .op .ampersand) = false := by
    rintro x (rfl | ⟨token, _, rfl | rfl, rfl⟩) <;> rfl
  exact (leads_atOperator .ampersand false).look (hend.bindPure rfl) hampersand

theorem leads_nextStatement_open (hstops : ∀ t ∈ stops, t.closes = true)
    (h : ReadsStatement command f n) :
    ∃ following, Leads (nextStatement command stops) (Piece.symbols n.layout)
      (pure (some (n.mapWords f, following))) (closesOpen stops) := by
  have hends : ∀ x, closesOpen stops x → endOr Symbol.endsList x := by
    rintro x (rfl | ⟨token, _, rfl | rfl, rfl⟩) <;> rfl
  rcases h with ⟨hstarts, hread⟩ | ⟨args, rfl, hstarts, hread⟩
  · refine ⟨.last, ?_⟩
    rw [← List.append_nil (Piece.symbols n.layout)]
    exact leads_nextStatement hstops hstarts hread (leads_endStatement_open _)
      (fun x hx => by simpa using hends x hx)
  · refine ⟨.more, ?_⟩
    have hsemicolon : Leads (do
          if ← atOperator .semicolon then advance
          return some ((Node.command args true).mapWords f, Following.more)) []
        (pure (some ((Node.command args true).mapWords f, .more))) (closesOpen stops) := by
      refine (leads_atOperator .semicolon false).look (Leads.refl _ _) ?_
      rintro x (rfl | ⟨token, _, rfl | rfl, rfl⟩) <;> rfl
    have hend := (leads_endStatement_ampersand stops (Node.mapAllWords f args)).trans hsemicolon
      (fun _ _ => trivial)
    rw [symbols_background]
    exact leads_nextStatement hstops hstarts hread hend (fun x _ => rfl)

/-- No statement starts at a token that closes the list. -/
def atStop (stops : List Token) : Option Symbol → Prop :=
  endOr (fun s => s.kind != .newline && s.token?.any (fun token => stops.contains token))

theorem closesOpen.atStop {x : Option Symbol} (h : closesOpen stops x) : atStop stops x := by
  rcases h with rfl | ⟨token, hmem, htoken, rfl⟩
  · rfl
  · have hnewline : token.symbol.kind ≠ .newline := by
      rcases htoken with rfl | rfl <;> decide
    simp [Grammar.atStop, hnewline, hmem]

theorem leads_nextStatement_stop :
    Leads (nextStatement command stops) [] (pure none) (atStop stops) := by
  rw [nextStatement_eq]
  refine leads_skipNewlines.look ?_ (fun x hx => endOr_mono (fun s hs => by simp_all) x hx)
  refine leads_current_front (fun front hfront => ?_)
  have hstop : front.all (stopsAt stops) = true := by
    cases front with
    | none => rfl
    | some lexeme =>
        have hs : lexeme.symbol.token?.any (fun token => stops.contains token) = true := by
          simp_all [atStop]
        exact hs
  simp only [hstop]
  exact Leads.refl _ _

/-! ## Statement lists -/

/-- The symbols of some statements with a semicolon after each. -/
def terminated (nodes : List Node) : List Symbol :=
  nodes.flatMap (fun n => Piece.symbols n.layout ++ [Token.semicolon.symbol])

theorem symbols_layoutMore (nodes : List Node) :
    Token.semicolon.symbol :: terminated nodes =
      Piece.symbols (Node.layoutMore Piece.separator nodes) ++ [Token.semicolon.symbol] := by
  induction nodes with
  | nil => rfl
  | cons node rest ih =>
      have hrest : terminated (node :: rest) =
          Piece.symbols node.layout ++ Token.semicolon.symbol :: terminated rest := by
        simp [terminated]
      rw [hrest, ih]
      simp [Node.layoutMore]

theorem symbols_layouts_closed {nodes : List Node} (hne : nodes ≠ []) :
    Piece.symbols (Node.layouts Piece.separator nodes) ++ [Token.semicolon.symbol] =
      terminated nodes := by
  cases nodes with
  | nil => exact absurd rfl hne
  | cons node rest =>
      have hrest := symbols_layoutMore rest
      simp only [Node.layouts, Piece.symbols_append, List.append_assoc]
      rw [← hrest]
      simp [terminated]

theorem symbols_layouts_open (nodes : List Node) (last : Node) :
    Piece.symbols (Node.layouts Piece.separator (nodes ++ [last])) =
      terminated nodes ++ Piece.symbols last.layout := by
  have hmore : ∀ rest : List Node,
      Piece.symbols (Node.layoutMore Piece.separator (rest ++ [last])) =
        Token.semicolon.symbol :: terminated rest ++ Piece.symbols last.layout := by
    intro rest
    induction rest with
    | nil => simp [Node.layoutMore, terminated]
    | cons node rest ih => simp [Node.layoutMore, ih, terminated]
  cases nodes with
  | nil => simp [Node.layouts, Node.layoutMore, terminated]
  | cons node rest => simp [Node.layouts, hmore, terminated]

variable {nodes : List Node} {last : Node}

theorem leads_statements_closed (hstops : ∀ t ∈ stops, t.closes = true)
    (hnodes : ∀ n ∈ nodes, ReadsStatement command f n) (bound : List Lexeme) (found : List Node)
    (hbound : nodes.length ≤ bound.length) :
    Leads (statements command stops bound found)
      (terminated nodes) (pure (found.reverse ++ nodes.map (Node.mapWords f))) (atStop stops) := by
  induction nodes generalizing bound found with
  | nil =>
      unfold statements
      exact leads_nextStatement_stop.bindPure (by simp)
  | cons node rest ih =>
      cases bound with
      | nil => simp at hbound
      | cons lexeme bound =>
          have hrest := ih (fun n hn => hnodes n (by simp [hn])) bound (node.mapWords f :: found)
            (by simpa using hbound)
          have hfound : (node.mapWords f :: found).reverse ++ rest.map (Node.mapWords f) =
              found.reverse ++ (node :: rest).map (Node.mapWords f) := by simp
          rw [hfound] at hrest
          unfold statements
          exact (leads_nextStatement_closed hstops (hnodes node (by simp))).bind hrest
            (fun _ _ => trivial)

theorem leads_statements_open (hstops : ∀ t ∈ stops, t.closes = true)
    (hnodes : ∀ n ∈ nodes, ReadsStatement command f n) (hlast : ReadsStatement command f last)
    (bound : List Lexeme) (found : List Node) (hbound : nodes.length ≤ bound.length) :
    Leads (statements command stops bound found)
      (terminated nodes ++ Piece.symbols last.layout)
      (pure (found.reverse ++ (nodes ++ [last]).map (Node.mapWords f))) (closesOpen stops) := by
  induction nodes generalizing bound found with
  | nil =>
      obtain ⟨following, hstatement⟩ := leads_nextStatement_open hstops hlast
      unfold statements
      cases following with
      | last => exact hstatement.bindPure (by simp)
      | more =>
          cases bound with
          | nil => exact hstatement.bindPure (by simp)
          | cons lexeme bound =>
              have hstop : Leads (statements command stops bound (last.mapWords f :: found)) []
                  (pure (found.reverse ++ ([] ++ [last]).map (Node.mapWords f)))
                  (closesOpen stops) := by
                unfold statements
                exact (leads_nextStatement_stop.bindPure (by simp)).weaken
                  (fun x hx => hx.atStop)
              exact hstatement.bindEnd hstop (fun x hx => hx)
  | cons node rest ih =>
      cases bound with
      | nil => simp at hbound
      | cons lexeme bound =>
          have hrest := ih (fun n hn => hnodes n (by simp [hn])) bound (node.mapWords f :: found)
            (by simpa using hbound)
          have hfound : (node.mapWords f :: found).reverse ++
              (rest ++ [last]).map (Node.mapWords f) =
                found.reverse ++ (node :: rest ++ [last]).map (Node.mapWords f) := by simp
          rw [hfound] at hrest
          unfold statements
          rw [terminated, List.flatMap_cons, List.append_assoc]
          exact (leads_nextStatement_closed hstops (hnodes node (by simp))).bind hrest
            (fun _ _ => trivial)

theorem length_le_length_terminated (nodes : List Node) :
    nodes.length ≤ (terminated nodes).length := by
  induction nodes with
  | nil => simp
  | cons node rest ih =>
      simp only [terminated, List.flatMap_cons, List.length_append, List.length_cons] at ih ⊢
      omega

theorem leads_statementList_closed (hstops : ∀ t ∈ stops, t.closes = true)
    (hnodes : ∀ n ∈ nodes, ReadsStatement command f n) :
    Leads (statementList command stops) (terminated nodes) (pure (nodes.map (Node.mapWords f)))
      (atStop stops) := by
  intro items rest finish hitems hrest
  have hbound : nodes.length ≤ (items ++ rest).length := by
    have hlength := length_le_length_terminated nodes
    rw [← hitems, List.length_map] at hlength
    rw [List.length_append]
    omega
  exact leads_statements_closed hstops hnodes (items ++ rest) [] hbound items rest finish hitems
    hrest

theorem leads_statementList_open (hstops : ∀ t ∈ stops, t.closes = true)
    (hnodes : ∀ n ∈ nodes, ReadsStatement command f n) :
    Leads (statementList command stops) (Piece.symbols (Node.layouts Piece.separator nodes))
      (pure (nodes.map (Node.mapWords f))) (closesOpen stops) := by
  rcases List.eq_nil_or_concat nodes with rfl | ⟨front, last, rfl⟩
  · exact (leads_statementList_closed hstops hnodes).weaken (fun x hx => hx.atStop)
  · rw [List.concat_eq_append] at hnodes ⊢
    rw [symbols_layouts_open]
    intro items rest finish hitems hrest
    have hbound : front.length ≤ (items ++ rest).length := by
      have hlength := length_le_length_terminated front
      have hitemsLength := congrArg List.length hitems
      simp only [List.length_map, List.length_append] at hitemsLength ⊢
      omega
    exact leads_statements_open hstops (fun n hn => hnodes n (by simp [hn]))
      (hnodes last (by simp)) (items ++ rest) [] hbound items rest finish hitems hrest

/-- A body is a list that is not empty. -/
theorem leads_statementBody {s : List Symbol} {F : Option Symbol → Prop} {body : List Node}
    (h : Leads (statementList command stops) s (pure body) F) (hne : body ≠ []) :
    Leads (statementBody command stops) s (pure body) F := by
  refine h.bindPure ?_
  cases body with
  | nil => exact absurd rfl hne
  | cons node rest => rfl

theorem leads_statementBody_closed (hstops : ∀ t ∈ stops, t.closes = true) (hne : nodes ≠ [])
    (hnodes : ∀ n ∈ nodes, ReadsStatement command f n) :
    Leads (statementBody command stops)
      (Piece.symbols (Node.layouts Piece.separator nodes) ++ [Token.semicolon.symbol])
      (pure (nodes.map (Node.mapWords f))) (atStop stops) := by
  rw [symbols_layouts_closed hne]
  exact leads_statementBody (leads_statementList_closed hstops hnodes) (by simpa using hne)

theorem leads_statementBody_open (hstops : ∀ t ∈ stops, t.closes = true) (hne : nodes ≠ [])
    (hnodes : ∀ n ∈ nodes, ReadsStatement command f n) :
    Leads (statementBody command stops) (Piece.symbols (Node.layouts Piece.separator nodes))
      (pure (nodes.map (Node.mapWords f))) (closesOpen stops) :=
  leads_statementBody (leads_statementList_open hstops hnodes) (by simpa using hne)

theorem leads_condition {stop : Token} (hstop : stop.closes = true)
    (h : ReadsStatement command f n) :
    Leads (condition command stop) (Piece.symbols n.layout ++ [Token.semicolon.symbol])
      (pure (n.mapWords f)) (atStop [stop]) := by
  have hstops : ∀ t ∈ [stop], t.closes = true := by simpa using hstop
  have hnodes : ∀ m ∈ [n], ReadsStatement command f m := by simpa using h
  have hbody := leads_statementBody_closed hstops (by simp) hnodes
  have hsymbols : Piece.symbols (Node.layouts Piece.separator [n]) = Piece.symbols n.layout := by
    simp [Node.layouts, Node.layoutMore]
  rw [hsymbols] at hbody
  exact hbody.bindPure rfl

end Grammar

end Conch.Syntax
