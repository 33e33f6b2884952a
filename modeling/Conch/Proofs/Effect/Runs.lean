import Conch.Effect.Proc

/-!
# Finished runs

`p.Runs log a` says that the program `p`, when it gets the replies of the log to its
requests, finishes with `a`.  The log holds every request with its reply and every task
that was started, in order.  Nothing is said about what the replies are, nor about the
tasks beside the program.
-/

namespace Conch

/-- A request with its reply, or the start of a task. -/
inductive Exchange where
  | asked (r : Request) (reply : r.Reply)
  | started (isJob : Bool) (task : Proc Outcome) (id : TaskId)

namespace Proc

/-- How a part is repeated on its own results until it gives a final one. -/
inductive Repeats {σ τ : Type} (round : σ → List Exchange → σ ⊕ τ → Prop) :
    σ → List Exchange → τ → Prop where
  | stop {s : σ} {log : List Exchange} {last : τ} (h : round s log (.inr last)) :
      Repeats round s log last
  | again {s next : σ} {log rest : List Exchange} {last : τ} (h : round s log (.inl next))
      (hrest : Repeats round next rest last) : Repeats round s (log ++ rest) last

def Runs {α : Type} : Proc α → List Exchange → α → Prop
  | .done b, log, a => log = [] ∧ a = b
  | .ask r k, log, a => ∃ reply rest, log = .asked r reply :: rest ∧ (k reply).Runs rest a
  | .fork isJob task k, log, a =>
      ∃ id rest, log = .started isJob task id :: rest ∧ (k id).Runs rest a
  | .iterate body start k, log, a =>
      ∃ last first rest, log = first ++ rest ∧ Repeats (fun s => (body s).Runs) start first last ∧
        (k last).Runs rest a

section

variable {α β σ τ : Type} {log : List Exchange}

@[simp] theorem runs_done {a b : α} : (done b).Runs log a ↔ log = [] ∧ a = b := Iff.rfl

/-- A run of a sequence is a run of its first part and then one of the rest. -/
theorem runs_bind {p : Proc α} {f : α → Proc β} {b : β} :
    (p.bind f).Runs log b ↔
      ∃ a first rest, log = first ++ rest ∧ p.Runs first a ∧ (f a).Runs rest b := by
  induction p generalizing log with
  | done a =>
      simp only [bind, runs_done]
      constructor
      · intro h
        exact ⟨a, [], log, rfl, ⟨rfl, rfl⟩, h⟩
      · rintro ⟨_, _, rest, rfl, ⟨rfl, rfl⟩, h⟩
        exact h
  | ask r k ih =>
      simp only [bind, Runs, ih]
      constructor
      · rintro ⟨reply, _, rfl, a, first, rest, rfl, hfirst, hrest⟩
        exact ⟨a, _, rest, rfl, ⟨reply, first, rfl, hfirst⟩, hrest⟩
      · rintro ⟨a, _, rest, rfl, ⟨reply, first, rfl, hfirst⟩, hrest⟩
        exact ⟨reply, _, rfl, a, first, rest, rfl, hfirst, hrest⟩
  | fork isJob task k _ ih =>
      simp only [bind, Runs, ih]
      constructor
      · rintro ⟨id, _, rfl, a, first, rest, rfl, hfirst, hrest⟩
        exact ⟨a, _, rest, rfl, ⟨id, first, rfl, hfirst⟩, hrest⟩
      · rintro ⟨a, _, rest, rfl, ⟨id, first, rfl, hfirst⟩, hrest⟩
        exact ⟨id, _, rfl, a, first, rest, rfl, hfirst, hrest⟩
  | iterate body start k _ ih =>
      simp only [bind, Runs, ih]
      constructor
      · rintro ⟨last, rounds, _, rfl, hrounds, a, first, rest, rfl, hfirst, hrest⟩
        exact ⟨a, rounds ++ first, rest, (List.append_assoc ..).symm,
          ⟨last, rounds, first, rfl, hrounds, hfirst⟩, hrest⟩
      · rintro ⟨a, _, rest, rfl, ⟨last, rounds, first, rfl, hrounds, hfirst⟩, hrest⟩
        exact ⟨last, rounds, first ++ rest, List.append_assoc .., hrounds, a, first, rest, rfl,
          hfirst, hrest⟩

theorem runs_repeatFrom {start : σ} {body : σ → Proc (σ ⊕ τ)} {last : τ} :
    (repeatFrom start body).Runs log last ↔ Repeats (fun s => (body s).Runs) start log last := by
  constructor
  · rintro ⟨_, rounds, _, rfl, hrounds, rfl, rfl⟩
    rwa [List.append_nil]
  · intro h
    exact ⟨last, log, [], (List.append_nil _).symm, h, rfl, rfl⟩

end

end Proc

/-! ## Actions -/

/-- `Acts body s log x`: the action, started in the state `s`, finishes as the log says with the
result and the state `x`. -/
def Acts {ε σ α : Type} (body : ExceptT ε (StateT σ Proc) α) (s : σ) (log : List Exchange)
    (x : Except ε α × σ) : Prop :=
  (body.run.run s).Runs log x

section

variable {ε σ α β : Type} {s : σ} {log : List Exchange}

theorem acts_pure {a : α} {x : Except ε α × σ} :
    Acts (pure a) s log x ↔ log = [] ∧ x = (.ok a, s) := Iff.rfl

theorem acts_throw {e : ε} {x : Except ε α × σ} :
    Acts (throw e) s log x ↔ log = [] ∧ x = (.error e, s) := Iff.rfl

theorem acts_get_bind {next : σ → ExceptT ε (StateT σ Proc) α} {x : Except ε α × σ} :
    Acts (get >>= next) s log x ↔ Acts (next s) s log x := Iff.rfl

theorem acts_modify_bind {f : σ → σ} {next : PUnit → ExceptT ε (StateT σ Proc) α}
    {x : Except ε α × σ} :
    Acts (modify f >>= next) s log x ↔ Acts (next ()) (f s) log x := Iff.rfl

/-- A sequence is interrupted by its first part or goes on with the rest. -/
theorem acts_bind {body : ExceptT ε (StateT σ Proc) α} {next : α → ExceptT ε (StateT σ Proc) β}
    {x : Except ε β × σ} :
    Acts (body >>= next) s log x ↔
      (∃ e s', x = (.error e, s') ∧ Acts body s log (.error e, s')) ∨
      ∃ a s' first rest, log = first ++ rest ∧ Acts body s first (.ok a, s') ∧
        Acts (next a) s' rest x := by
  have hrun : Acts (body >>= next) s log x ↔
      ((body.run.run s).bind fun r => (ExceptT.bindCont next r.1).run r.2).Runs log x := Iff.rfl
  rw [hrun, Proc.runs_bind]
  constructor
  · rintro ⟨⟨e | a, s'⟩, first, rest, rfl, hfirst, hrest⟩
    · obtain ⟨rfl, rfl⟩ : rest = [] ∧ x = (.error e, s') := hrest
      rw [List.append_nil]
      exact .inl ⟨e, s', rfl, hfirst⟩
    · exact .inr ⟨a, s', first, rest, rfl, hfirst, hrest⟩
  · rintro (⟨e, s', rfl, hbody⟩ | ⟨a, s', first, rest, rfl, hfirst, hrest⟩)
    · exact ⟨(.error e, s'), log, [], (List.append_nil _).symm, hbody, rfl, rfl⟩
    · exact ⟨(.ok a, s'), first, rest, rfl, hfirst, hrest⟩

/-- A program that knows nothing of the state. -/
theorem acts_lift {p : Proc α} {x : Except ε α × σ} :
    Acts (liftM p : ExceptT ε (StateT σ Proc) α) s log x ↔ ∃ a, p.Runs log a ∧ x = (.ok a, s) := by
  have hrun : Acts (liftM p : ExceptT ε (StateT σ Proc) α) s log x ↔
      ((p.bind fun a => .done (a, s)).bind fun r => .done (.ok r.1, r.2)).Runs log x := Iff.rfl
  rw [hrun, Proc.bind_assoc, Proc.runs_bind]
  constructor
  · rintro ⟨a, first, rest, rfl, hfirst, rfl, rfl⟩
    rw [List.append_nil]
    exact ⟨a, hfirst, rfl⟩
  · rintro ⟨a, hruns, rfl⟩
    exact ⟨a, log, [], (List.append_nil _).symm, hruns, rfl, rfl⟩

/-- An action whose result is not used. -/
theorem acts_discard {body : ExceptT ε (StateT σ Proc) α} {x : Except ε PUnit × σ} :
    Acts (discard body) s log x ↔
      ∃ result s', Acts body s log (result, s') ∧ x = (result.map (fun _ => ()), s') := by
  have hrun : Acts (discard body) s log x ↔ Acts (body >>= fun _ => pure ()) s log x := Iff.rfl
  rw [hrun, acts_bind]
  constructor
  · rintro (⟨e, s', rfl, hbody⟩ | ⟨a, s', first, rest, rfl, hbody, rfl, rfl⟩)
    · exact ⟨.error e, s', hbody, rfl⟩
    · rw [List.append_nil]
      exact ⟨.ok a, s', hbody, rfl⟩
  · rintro ⟨e | a, s', hbody, rfl⟩
    · exact .inl ⟨e, s', rfl, hbody⟩
    · exact .inr ⟨a, s', log, [], (List.append_nil _).symm, hbody, rfl, rfl⟩

theorem acts_discard_bind {body : ExceptT ε (StateT σ Proc) α}
    {next : PUnit → ExceptT ε (StateT σ Proc) β} {x : Except ε β × σ} :
    Acts (discard body >>= next) s log x ↔ Acts (body >>= fun _ => next ()) s log x := by
  rw [acts_bind, acts_bind]
  constructor
  · rintro (⟨e, s', rfl, hbody⟩ | ⟨_, s', first, rest, rfl, hbody, hrest⟩)
    · obtain ⟨result, _, hbody, hx⟩ := acts_discard.mp hbody
      cases result with
      | error e =>
          cases hx
          exact .inl ⟨e, s', rfl, hbody⟩
      | ok a => cases hx
    · obtain ⟨result, _, hbody, hx⟩ := acts_discard.mp hbody
      cases result with
      | error e => cases hx
      | ok a =>
          cases hx
          exact .inr ⟨a, s', first, rest, rfl, hbody, hrest⟩
  · rintro (⟨e, s', rfl, hbody⟩ | ⟨a, s', first, rest, rfl, hbody, hrest⟩)
    · exact .inl ⟨e, s', rfl, acts_discard.mpr ⟨_, s', hbody, rfl⟩⟩
    · exact .inr ⟨(), s', first, rest, rfl, acts_discard.mpr ⟨_, s', hbody, rfl⟩, hrest⟩

/-! ### Actions that can finish -/

/-- From every state some replies make the action finish. -/
def CanFinish (body : ExceptT ε (StateT σ Proc) α) : Prop :=
  ∀ s, ∃ log result s', Acts body s log (result, s')

namespace CanFinish

theorem pure (a : α) : CanFinish (Pure.pure a : ExceptT ε (StateT σ Proc) α) :=
  fun s => ⟨[], .ok a, s, rfl, rfl⟩

theorem modify (f : σ → σ) : CanFinish (modify f : ExceptT ε (StateT σ Proc) PUnit) :=
  fun s => ⟨[], .ok (), f s, rfl, rfl⟩

theorem get : CanFinish (get : ExceptT ε (StateT σ Proc) σ) :=
  fun s => ⟨[], .ok s, s, rfl, rfl⟩

theorem bind {body : ExceptT ε (StateT σ Proc) α} {next : α → ExceptT ε (StateT σ Proc) β}
    (hbody : CanFinish body) (hnext : ∀ a, CanFinish (next a)) : CanFinish (body >>= next) := by
  intro s
  obtain ⟨first, result, s', hfirst⟩ := hbody s
  cases result with
  | error e => exact ⟨first, .error e, s', acts_bind.mpr (.inl ⟨e, s', rfl, hfirst⟩)⟩
  | ok a =>
      obtain ⟨rest, result, s'', hrest⟩ := hnext a s'
      exact ⟨first ++ rest, result, s'',
        acts_bind.mpr (.inr ⟨a, s', first, rest, rfl, hfirst, hrest⟩)⟩

theorem mapM {f : α → ExceptT ε (StateT σ Proc) β} (hf : ∀ a, CanFinish (f a)) (items : List α) :
    CanFinish (items.mapM f) := by
  induction items with
  | nil => exact .pure []
  | cons a items ih =>
      rw [List.mapM_cons]
      exact (hf a).bind (fun b => ih.bind (fun rest => .pure (b :: rest)))

end CanFinish

end

end Conch
