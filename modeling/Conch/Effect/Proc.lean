import Conch.Effect.Request

/-!
# Running programs

A running program is a tree: it is done, or it asks a request and goes on with the
reply, or it starts a task that runs beside it, or it repeats a part until that part
says that it is over.  Trees are well founded, so only repetition can go on for ever.
Programs are composed by grafting one onto the leaves of another.
-/

namespace Conch

inductive Proc : Type → Type 1 where
  | done {α : Type} (a : α) : Proc α
  | ask {α : Type} (r : Request) (k : r.Reply → Proc α) : Proc α
  /-- Starts a task; a background job is one that can be waited for as such. -/
  | fork {α : Type} (isJob : Bool) (task : Proc Outcome) (k : TaskId → Proc α) : Proc α
  /-- Repeats the body on its own results until it gives a final one. -/
  | iterate {σ τ α : Type} (body : σ → Proc (σ ⊕ τ)) (start : σ) (k : τ → Proc α) : Proc α

namespace Proc

def bind {α β : Type} : Proc α → (α → Proc β) → Proc β
  | .done a, f => f a
  | .ask r k, f => .ask r (fun reply => (k reply).bind f)
  | .fork isJob task k, f => .fork isJob task (fun id => (k id).bind f)
  | .iterate body start k, f => .iterate body start (fun last => (k last).bind f)

instance : Monad Proc where
  pure := .done
  bind := bind

@[simp] theorem pure_eq {α : Type} (a : α) : (pure a : Proc α) = .done a := rfl

@[simp] theorem bind_eq {α β : Type} (p : Proc α) (f : α → Proc β) : p >>= f = p.bind f := rfl

@[simp] theorem bind_done {α : Type} (p : Proc α) : p.bind .done = p := by
  induction p with
  | done => rfl
  | ask r k ih => simp [bind, ih]
  | fork isJob task k _ ih => simp [bind, ih]
  | iterate body start k _ ih => simp [bind, ih]

theorem bind_assoc {α β γ : Type} (p : Proc α) (f : α → Proc β) (g : β → Proc γ) :
    (p.bind f).bind g = p.bind (fun a => (f a).bind g) := by
  induction p with
  | done => rfl
  | ask r k ih => simp [bind, ih]
  | fork isJob task k _ ih => simp [bind, ih]
  | iterate body start k _ ih => simp [bind, ih]

instance : LawfulMonad Proc where
  map_const := rfl
  id_map p := bind_done p
  seqLeft_eq p q := by
    show p.bind _ = (p.bind _).bind _
    rw [bind_assoc]
    rfl
  seqRight_eq p q := by
    show p.bind _ = (p.bind _).bind _
    rw [bind_assoc]
    show p.bind (fun _ => q) = p.bind (fun _ => q.bind .done)
    simp
  pure_seq f p := rfl
  bind_pure_comp f p := rfl
  bind_map f p := rfl
  pure_bind a f := rfl
  bind_assoc p f g := bind_assoc p f g

/-- Asks one request. -/
def request (r : Request) : Proc r.Reply := .ask r .done

def call (c : Call) : Proc c.Reply := .ask (.call c) .done

/-- Starts a task that runs beside the program. -/
def start (isJob : Bool) (task : Proc Outcome) : Proc TaskId := .fork isJob task .done

/-- Repeats the body on its own results until it gives a final one. -/
def repeatFrom {σ τ : Type} (start : σ) (body : σ → Proc (σ ⊕ τ)) : Proc τ :=
  .iterate body start .done

end Proc

end Conch
