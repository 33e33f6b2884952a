import Conch.Proofs.Tree.Layout
import Conch.Syntax.Compound

/-!
# What a grammar reads

`g.Leads symbols k follow` says that the grammar `g`, standing before lexemes that
spell the symbols, reads all of them and goes on as `k`, whatever comes after them as
long as its front satisfies `follow`.  The rules compose such statements along the
sequence, so that a construct is read by a chain of its parts.
-/

namespace Conch.Syntax

/-- The symbol at the front of some lexemes. -/
def frontOf (items : List Lexeme) : Option Symbol := items.head?.map Lexeme.symbol

@[simp] theorem frontOf_nil : frontOf [] = none := rfl

@[simp] theorem frontOf_cons (lexeme : Lexeme) (items : List Lexeme) :
    frontOf (lexeme :: items) = some lexeme.symbol := rfl

theorem frontOf_append (items rest : List Lexeme) :
    frontOf (items ++ rest) = (items.map Lexeme.symbol).head?.or (frontOf rest) := by
  cases items <;> rfl

namespace Symbol

/-- The token that a symbol stands for, as an operator or as a reserved word. -/
def token? (s : Symbol) : Option Token :=
  match s.kind with
  | .op token => some token
  | .word => Token.reserved? s.text
  | _ => none

end Symbol

theorem Lexeme.token?_eq (lexeme : Lexeme) : lexeme.token? = lexeme.symbol.token? := rfl

@[simp] theorem Token.symbol_token? (token : Token) : token.symbol.token? = some token := by
  cases token <;> decide

namespace Grammar

variable {α β : Type}

@[simp] theorem pure_run (a : α) (stream : Lexemes) :
    (pure a : Grammar α) stream = .ok (a, stream) := rfl

theorem bind_ok {g : Grammar α} {k : α → Grammar β} {a : α} {stream rest : Lexemes}
    (hg : g stream = .ok (a, rest)) : (g >>= k) stream = k a rest := by
  simp only [bind, hg]

theorem bind_error {g : Grammar α} {k : α → Grammar β} {failure : Failure} {stream : Lexemes}
    (hg : g stream = .error failure) : (g >>= k) stream = .error failure := by
  simp only [bind, hg]

def Leads (g : Grammar α) (symbols : List Symbol) (k : Grammar α)
    (follow : Option Symbol → Prop) : Prop :=
  ∀ (items rest : List Lexeme) (finish : Position), items.map Lexeme.symbol = symbols →
    follow (frontOf rest) → g ⟨items ++ rest, finish⟩ = k ⟨rest, finish⟩

/-- Anything may follow. -/
def always : Option Symbol → Prop := fun _ => True

/-- The text ends, or goes on with such a symbol. -/
def endOr (p : Symbol → Bool) (x : Option Symbol) : Prop := x.all p = true

instance (p : Symbol → Bool) (x : Option Symbol) : Decidable (endOr p x) :=
  inferInstanceAs (Decidable (x.all p = true))

@[simp] theorem endOr_none (p : Symbol → Bool) : endOr p none := rfl

@[simp] theorem endOr_some (p : Symbol → Bool) (s : Symbol) : endOr p (some s) ↔ p s = true :=
  Iff.rfl

theorem endOr_mono {p q : Symbol → Bool} (hpq : ∀ s, p s = true → q s = true) (x : Option Symbol)
    (h : endOr p x) : endOr q x := by
  cases x with
  | none => rfl
  | some s => exact hpq s h

namespace Leads

variable {g k m : Grammar α} {s t : List Symbol} {F G : Option Symbol → Prop}

theorem refl (g : Grammar α) (F : Option Symbol → Prop) : Leads g [] g F := by
  intro items rest finish hitems _
  rw [List.map_eq_nil_iff.mp hitems]
  rfl

theorem weaken (h : Leads g s k F) (hFG : ∀ x, G x → F x) : Leads g s k G :=
  fun items rest finish hitems hrest => h items rest finish hitems (hFG _ hrest)

theorem trans (hg : Leads g s k F) (hk : Leads k t m G)
    (hnext : ∀ x, G x → F (t.head?.or x)) : Leads g (s ++ t) m G := by
  intro items rest finish hitems hrest
  obtain ⟨first, second, rfl, hfirst, hsecond⟩ := List.map_eq_append_iff.mp hitems
  rw [List.append_assoc, hg first (second ++ rest) finish hfirst, hk second rest finish hsecond hrest]
  rw [frontOf_append, hsecond]
  exact hnext _ hrest

/-- A part reads its symbols to a value, and the rest goes on with that value. -/
theorem bind {g : Grammar α} {next : α → Grammar β} {a : α} {m : Grammar β}
    (hg : Leads g s (pure a) F) (hk : Leads (next a) t m G)
    (hnext : ∀ x, G x → F (t.head?.or x)) : Leads (g >>= next) (s ++ t) m G := by
  intro items rest finish hitems hrest
  obtain ⟨first, second, rfl, hfirst, hsecond⟩ := List.map_eq_append_iff.mp hitems
  have hfront : F (frontOf (second ++ rest)) := by
    rw [frontOf_append, hsecond]
    exact hnext _ hrest
  rw [List.append_assoc, bind_ok (hg first (second ++ rest) finish hfirst hfront),
    hk second rest finish hsecond hrest]

/-- The last part of a sequence. -/
theorem bindPure {g : Grammar α} {next : α → Grammar β} {a : α} {b : β}
    (hg : Leads g s (pure a) F) (hk : next a = pure b) : Leads (g >>= next) s (pure b) F := by
  have hrest : Leads (next a) [] (pure b) F := by
    rw [hk]
    exact Leads.refl _ F
  simpa using bind hg hrest (fun x hx => by simpa using hx)

/-- A part that reads nothing but looks at the front. -/
theorem look {g : Grammar α} {next : α → Grammar β} {a : α} {m : Grammar β}
    (hg : Leads g [] (pure a) F) (hk : Leads (next a) t m G)
    (hnext : ∀ x, G x → F (t.head?.or x)) : Leads (g >>= next) t m G := by
  simpa using bind hg hk hnext

/-- A part after which nothing more is read. -/
theorem bindEnd {g : Grammar α} {next : α → Grammar β} {a : α} {m : Grammar β}
    (hg : Leads g s (pure a) F) (hk : Leads (next a) [] m G) (hnext : ∀ x, G x → F x) :
    Leads (g >>= next) s m G := by
  have hboth := bind hg hk (fun x hx => by simpa using hnext x hx)
  simpa using hboth

end Leads

/-! ## Single lexemes -/

/-- A grammar that takes one lexeme reads it whatever follows. -/
theorem leads_of_cons {g k : Grammar α} {s : Symbol}
    (h : ∀ (lexeme : Lexeme) (rest : List Lexeme) (finish : Position), lexeme.symbol = s →
      g ⟨lexeme :: rest, finish⟩ = k ⟨rest, finish⟩) : Leads g [s] k always := by
  intro items rest finish hitems _
  obtain ⟨lexeme, rfl, hlexeme⟩ := List.map_eq_singleton_iff.mp hitems
  exact h lexeme rest finish hlexeme

/-- A grammar that only looks at the front. -/
theorem leads_of_front {g k : Grammar α} {F : Option Symbol → Prop}
    (h : ∀ (rest : List Lexeme) (finish : Position), F (frontOf rest) →
      g ⟨rest, finish⟩ = k ⟨rest, finish⟩) : Leads g [] k F := by
  intro items rest finish hitems hrest
  rw [List.map_eq_nil_iff.mp hitems]
  exact h rest finish hrest

theorem leads_advance (s : Symbol) : Leads advance [s] (pure ()) always :=
  leads_of_cons (fun _ _ _ _ => rfl)

theorem atToken_run (token : Token) (rest : List Lexeme) (finish : Position) :
    atToken token ⟨rest, finish⟩ =
      .ok ((frontOf rest).any (fun s => s.token? == some token), ⟨rest, finish⟩) := by
  cases rest <;> rfl

theorem atOperator_run (token : Token) (rest : List Lexeme) (finish : Position) :
    atOperator token ⟨rest, finish⟩ =
      .ok ((frontOf rest).any (fun s => s.kind == .op token), ⟨rest, finish⟩) := by
  cases rest <;> rfl

theorem leads_atToken (token : Token) (b : Bool) :
    Leads (atToken token) [] (pure b)
      (fun x => x.any (fun s => s.token? == some token) = b) :=
  leads_of_front (fun rest finish h => by rw [atToken_run, h]; rfl)

theorem leads_atOperator (token : Token) (b : Bool) :
    Leads (atOperator token) [] (pure b) (fun x => x.any (fun s => s.kind == .op token) = b) :=
  leads_of_front (fun rest finish h => by rw [atOperator_run, h]; rfl)

theorem leads_expect (token : Token) :
    Leads (expect token) [token.symbol] (pure ()) always := by
  have htoken : ∀ x : Option Symbol, always x →
      (([token.symbol] : List Symbol).head?.or x).any (fun s => s.token? == some token) = true := by
    intro x _
    simp
  exact (leads_atToken token true).look (leads_advance token.symbol) htoken

theorem leads_skipNewlines :
    Leads skipNewlines [] (pure ()) (endOr (fun s => s.kind != .newline)) := by
  refine leads_of_front (fun rest finish h => ?_)
  cases rest with
  | nil => rfl
  | cons lexeme rest =>
      have hkind : (lexeme.kind == LexemeKind.newline) = false := by
        simpa [Lexeme.symbol, bne] using h
      simp [skipNewlines, List.dropWhile, hkind]

end Grammar

end Conch.Syntax
