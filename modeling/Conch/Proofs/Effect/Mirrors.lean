import Conch.Proofs.Effect.Trees

/-!
# Programs that mirror each other

Programs run beside the tasks that they start, and what a task ended with is the reply
when it is joined.  So a promise about the ends of tasks is one that a program may rely
on where it joins, and has to keep where it starts tasks.  Two programs mirror each other
if they make the same requests as long as the promise is kept, keep it themselves, and
come to the same results.
-/

namespace Conch

/-- The reply to expect: a task that is joined has ended as promised. -/
def Request.Admits (promise : Outcome → Prop) : (r : Request) → r.Reply → Prop
  | .join _, outcome => promise outcome
  | _, _ => True

/-- Of any result. -/
@[reducible] def anything {α : Type} (_ : α) : Prop := True

namespace Proc

/-- While the promise is kept, the programs are the same, and every result has the property. -/
inductive Mirrors (promise : Outcome → Prop) :
    {α : Type} → (α → Prop) → Proc α → Proc α → Prop where
  | done {α : Type} {P : α → Prop} {a : α} (h : P a) : Mirrors promise P (.done a) (.done a)
  | ask {α : Type} {P : α → Prop} {r : Request} {k k' : r.Reply → Proc α}
      (h : ∀ reply, r.Admits promise reply → Mirrors promise P (k reply) (k' reply)) :
      Mirrors promise P (.ask r k) (.ask r k')
  | fork {α : Type} {P : α → Prop} {isJob : Bool} {task task' : Proc Outcome}
      {k k' : TaskId → Proc α} (htask : Mirrors promise promise task task')
      (h : ∀ id, Mirrors promise P (k id) (k' id)) :
      Mirrors promise P (.fork isJob task k) (.fork isJob task' k')
  | iterate {σ τ α : Type} {P : α → Prop} {body : σ → Proc (σ ⊕ τ)} {start : σ}
      {k k' : τ → Proc α} {I : σ → Prop} {L : τ → Prop} (hstart : I start)
      (hbody : ∀ s, I s → Mirrors promise (Sum.elim I L) (body s) (body s))
      (h : ∀ last, L last → Mirrors promise P (k last) (k' last)) :
      Mirrors promise P (.iterate body start k) (.iterate body start k')

/-- While the promise is kept, it is kept by the program, and every result has the property. -/
def Keeps (promise : Outcome → Prop) {α : Type} (P : α → Prop) (p : Proc α) : Prop :=
  p.Mirrors promise P p

section

variable {promise : Outcome → Prop} {α β : Type} {P Q : α → Prop} {p q : Proc α}

namespace Mirrors

theorem mono (h : Mirrors promise P p q) (hPQ : ∀ a, P a → Q a) : Mirrors promise Q p q := by
  induction h with
  | done h => exact .done (hPQ _ h)
  | ask h ih => exact .ask fun reply hreply => ih reply hreply hPQ
  | fork htask h _ ih => exact .fork htask fun id => ih id hPQ
  | iterate hstart hbody h _ ih => exact .iterate hstart hbody fun last hlast => ih last hlast hPQ

theorem bind {f g : α → Proc β} {Q : β → Prop} (h : Mirrors promise P p q)
    (hnext : ∀ a, P a → Mirrors promise Q (f a) (g a)) :
    Mirrors promise Q (p.bind f) (q.bind g) := by
  induction h with
  | done h => exact hnext _ h
  | ask h ih => exact .ask fun reply hreply => ih reply hreply hnext
  | fork htask h _ ih => exact .fork htask fun id => ih id hnext
  | iterate hstart hbody h _ ih =>
      exact .iterate hstart hbody fun last hlast => ih last hlast hnext

theorem symm (h : Mirrors promise P p q) : Mirrors promise P q p := by
  induction h with
  | done h => exact .done h
  | ask _ ih => exact .ask ih
  | fork _ _ htask ih => exact .fork htask ih
  | iterate hstart hbody _ _ ih => exact .iterate hstart hbody ih

theorem left (h : Mirrors promise P p q) : Keeps promise P p := by
  induction h with
  | done h => exact .done h
  | ask h ih => exact .ask ih
  | fork htask h hkeeps ih => exact .fork hkeeps ih
  | iterate hstart hbody h _ ih => exact .iterate hstart hbody ih

end Mirrors

/-- Nothing is known of a round and of what follows it. -/
theorem Returns.round {σ τ : Type} (body : Proc (σ ⊕ τ)) :
    body.Returns (Sum.elim anything anything) :=
  (Returns.trivial body).mono fun round _ => by cases round <;> exact True.intro

/-- Nothing has to be said of the tasks where every outcome keeps the promise. -/
theorem Returns.keeps (hall : ∀ outcome, promise outcome) (h : p.Returns P) :
    p.Keeps promise P := by
  induction p with
  | done a => exact .done h
  | ask r k ih => exact .ask fun reply _ => ih reply (h reply)
  | fork isJob task k htask ih =>
      exact .fork (Mirrors.mono (htask (Returns.trivial task)) fun o _ => hall o)
        fun id => ih id (h id)
  | iterate body start k hbody ih =>
      exact .iterate True.intro (fun s _ => hbody s (Returns.round (body s)))
        fun last _ => ih last (h last)

end

/-! ## Programs that only ask -/

/-- Starts no task and repeats nothing. -/
inductive Asks : {α : Type} → Proc α → Prop where
  | done {α : Type} (a : α) : Asks (.done a)
  | ask {α : Type} {r : Request} {k : r.Reply → Proc α} (h : ∀ reply, Asks (k reply)) :
      Asks (.ask r k)

namespace Asks

variable {α β : Type} {p : Proc α}

theorem request (r : Request) : (Proc.request r).Asks := .ask fun reply => .done reply

theorem andThen {f : α → Proc β} (h : p.Asks) (hf : ∀ a, (f a).Asks) : (p.bind f).Asks := by
  induction h with
  | done a => exact hf a
  | ask h ih => exact .ask ih

theorem flatMapM {f : α → Proc (List β)} (items : List α) (h : ∀ a, (f a).Asks) :
    (items.flatMapM f).Asks := by
  induction items with
  | nil => exact .done []
  | cons a items ih =>
      rw [List.flatMapM_cons]
      exact (h a).andThen fun _ => ih.andThen fun _ => .done _

theorem terminates (h : p.Asks) : p.Terminates := by
  induction h with
  | done a => exact .done a
  | ask h ih => exact .ask ih

/-- What it asks it can do without any promise. -/
theorem keeps {promise : Outcome → Prop} {P : α → Prop} (h : p.Asks) (hP : p.Returns P) :
    p.Keeps promise P := by
  induction h with
  | done a => exact .done hP
  | ask h ih => exact .ask fun reply _ => ih reply (hP reply)

/-- Nor does a repetition of rounds that only ask need one. -/
theorem repeatFrom_keeps {promise : Outcome → Prop} {σ τ : Type} {body : σ → Proc (σ ⊕ τ)}
    (h : ∀ s, (body s).Asks) (start : σ) : (repeatFrom start body).Keeps promise anything :=
  .iterate True.intro (fun s _ => (h s).keeps (Returns.round (body s)))
    fun _ _ => .done True.intro

end Asks

end Proc

end Conch
