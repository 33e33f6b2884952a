import Conch.Proofs.Effect.Runs

/-!
# Trees of programs

What holds of every result in the tree of a program, and the programs that come to an
end whatever the replies are.  A tree has no infinite branch, so only a repetition can
go on for ever; it comes to an end if all its rounds together do.
-/

namespace Conch.Proc

section

variable {α β : Type}

/-- Every result in the tree has the property, whatever the replies. -/
def Returns {α : Type} : Proc α → (α → Prop) → Prop
  | .done a, P => P a
  | .ask _ k, P => ∀ reply, (k reply).Returns P
  | .fork _ _ k, P => ∀ id, (k id).Returns P
  | .iterate _ _ k, P => ∀ last, (k last).Returns P

theorem Returns.mono {p : Proc α} {P Q : α → Prop} (h : p.Returns P) (hPQ : ∀ a, P a → Q a) :
    p.Returns Q := by
  induction p with
  | done a => exact hPQ a h
  | ask r k ih => exact fun reply => ih reply (h reply) hPQ
  | fork isJob task k _ ih => exact fun id => ih id (h id) hPQ
  | iterate body start k _ ih => exact fun last => ih last (h last) hPQ

theorem Returns.bind {p : Proc α} {f : α → Proc β} {P : α → Prop} {Q : β → Prop}
    (h : p.Returns P) (hf : ∀ a, P a → (f a).Returns Q) : (p.bind f).Returns Q := by
  induction p with
  | done a => exact hf a h
  | ask r k ih => exact fun reply => ih reply (h reply) hf
  | fork isJob task k _ ih => exact fun id => ih id (h id) hf
  | iterate body start k _ ih => exact fun last => ih last (h last) hf

theorem Returns.trivial (p : Proc α) : p.Returns fun _ => True := by
  induction p with
  | done a => exact True.intro
  | ask r k ih => exact fun reply => ih reply
  | fork isJob task k _ ih => exact fun id => ih id
  | iterate body start k _ ih => exact fun last => ih last

/-- A finished run gives one of the results. -/
theorem Returns.of_runs {p : Proc α} {P : α → Prop} (h : p.Returns P) {log : List Exchange} {a : α}
    (hruns : p.Runs log a) : P a := by
  induction p generalizing log with
  | done b =>
      obtain ⟨_, rfl⟩ := hruns
      exact h
  | ask r k ih =>
      obtain ⟨reply, rest, _, hrest⟩ := hruns
      exact ih reply (h reply) hrest
  | fork isJob task k _ ih =>
      obtain ⟨id, rest, _, hrest⟩ := hruns
      exact ih id (h id) hrest
  | iterate body start k _ ih =>
      obtain ⟨last, first, rest, _, _, hrest⟩ := hruns
      exact ih last (h last) hrest

/-- What follows a program matters only at its results. -/
theorem bind_congr {p : Proc α} {f g : α → Proc β} (h : p.Returns fun a => f a = g a) :
    p.bind f = p.bind g := by
  induction p with
  | done a => exact h
  | ask r k ih => exact congrArg (ask r) (funext fun reply => ih reply (h reply))
  | fork isJob task k _ ih => exact congrArg (fork isJob task) (funext fun id => ih id (h id))
  | iterate body start k _ ih =>
      exact congrArg (iterate body start) (funext fun last => ih last (h last))

end

/-! ## Programs that come to an end -/

/-- The rounds of a repetition after one of them, and what follows the last one. -/
def again {σ τ α : Type} (body : σ → Proc (σ ⊕ τ)) (k : τ → Proc α) : σ ⊕ τ → Proc α
  | .inl next => .iterate body next k
  | .inr last => k last

/-- Whatever the replies are, the program and the tasks that it starts come to an end. -/
inductive Terminates : {α : Type} → Proc α → Prop where
  | done {α : Type} (a : α) : Terminates (.done a)
  | ask {α : Type} {r : Request} {k : r.Reply → Proc α} (h : ∀ reply, Terminates (k reply)) :
      Terminates (.ask r k)
  | fork {α : Type} {isJob : Bool} {task : Proc Outcome} {k : TaskId → Proc α}
      (htask : Terminates task) (h : ∀ id, Terminates (k id)) : Terminates (.fork isJob task k)
  | iterate {σ τ α : Type} {body : σ → Proc (σ ⊕ τ)} {start : σ} {k : τ → Proc α}
      (h : Terminates ((body start).bind (again body k))) : Terminates (.iterate body start k)

theorem again_bind {σ τ α β : Type} (body : σ → Proc (σ ⊕ τ)) (k : τ → Proc α) (f : α → Proc β) :
    (fun round => (again body k round).bind f) = again body fun last => (k last).bind f := by
  funext round
  cases round with
  | inl next => rfl
  | inr last => rfl

theorem Terminates.bind {α β : Type} {p : Proc α} {f : α → Proc β} {P : α → Prop}
    (h : p.Terminates) (hP : p.Returns P) (hf : ∀ a, P a → (f a).Terminates) :
    (p.bind f).Terminates := by
  induction h with
  | done a => exact hf a hP
  | ask h ih => exact .ask fun reply => ih reply (hP reply) hf
  | fork htask h _ ih => exact .fork htask fun id => ih id (hP id) hf
  | @iterate σ τ α body start k h ih =>
      have hrounds : ((body start).bind (again body k)).Returns P :=
        (Returns.trivial (body start)).bind fun round _ => by
          cases round with
          | inl next => exact hP
          | inr last => exact hP last
      have hbind := ih hrounds hf
      rw [bind_assoc, again_bind] at hbind
      exact .iterate hbind

/-! ## Replays -/

/-- The run in which the requests get these replies, as long as there is one for each of them and
nothing is repeated. -/
def replay {α : Type} (reply? : (r : Request) → Option r.Reply) :
    Proc α → Option (List Exchange × α)
  | .done a => some ([], a)
  | .ask r k => (reply? r).bind fun reply =>
      ((k reply).replay reply?).map fun x => (.asked r reply :: x.1, x.2)
  | .fork isJob task k => ((k 0).replay reply?).map fun x => (.started isJob task 0 :: x.1, x.2)
  | .iterate _ _ _ => none

theorem runs_of_replay {α : Type} {reply? : (r : Request) → Option r.Reply} {p : Proc α}
    {log : List Exchange} {a : α} (h : p.replay reply? = some (log, a)) : p.Runs log a := by
  induction p generalizing log with
  | done b =>
      cases h
      exact ⟨rfl, rfl⟩
  | ask r k ih =>
      obtain ⟨reply, _, hreplay⟩ := Option.bind_eq_some_iff.mp h
      obtain ⟨⟨rest, b⟩, hrest, hx⟩ := Option.map_eq_some_iff.mp hreplay
      cases hx
      exact ⟨reply, rest, rfl, ih reply hrest⟩
  | fork isJob task k _ ih =>
      obtain ⟨⟨rest, b⟩, hrest, hx⟩ := Option.map_eq_some_iff.mp h
      cases hx
      exact ⟨0, rest, rfl, ih 0 hrest⟩
  | iterate body start k => cases h

/-- A replay that passes a test is a run that does. -/
theorem exists_runs {α : Type} (reply? : (r : Request) → Option r.Reply) (p : Proc α)
    (test : List Exchange × α → Bool) (h : (p.replay reply?).any test = true) :
    ∃ log a, p.Runs log a ∧ test (log, a) = true := by
  obtain ⟨⟨log, a⟩, hreplay, htest⟩ := (Option.any_eq_true test _).mp h
  exact ⟨log, a, runs_of_replay hreplay, htest⟩

end Conch.Proc

namespace Conch

/-- Only the starts of commands are answered. -/
def Request.commandReply? : (r : Request) → Option r.Reply
  | .command => some ()
  | _ => none

/-- The action ends in the interruption if nothing but its commands is answered. -/
def isInterrupted {ε σ α : Type} [DecidableEq ε] (body : ExceptT ε (StateT σ Proc) α) (s : σ)
    (e : ε) : Bool :=
  ((body.run.run s).replay Request.commandReply?).any fun x =>
    match x.2.1 with
    | .ok _ => false
    | .error raised => raised = e

theorem exists_interrupted {ε σ α : Type} [DecidableEq ε] {body : ExceptT ε (StateT σ Proc) α}
    {s : σ} {e : ε} (h : isInterrupted body s e = true) : ∃ log s', Acts body s log (.error e, s') := by
  obtain ⟨log, ⟨result, s'⟩, hruns, hresult⟩ := Proc.exists_runs _ _ _ h
  cases result with
  | ok a => cases hresult
  | error raised =>
      obtain rfl := of_decide_eq_true hresult
      exact ⟨log, s', hruns⟩

end Conch
