import Conch.Proofs.Effect.Runs
import Conch.Shell.Basic

/-!
# Contracts of actions

A contract says how the shell that an action leaves compares with the one that it got,
and with which interruptions it may end.  It holds of an action if every finished run
keeps it, whatever the replies; a crash has only to be allowed.  The lemmas below take
an action apart; what a shell is copied for never reaches the shell itself.
-/

namespace Conch

section

variable {α β : Type} {shell : Shell} {log : List Exchange} {body : Action α}

theorem acts_state_bind {rest : State → Action β} {x : Except Interruption β × Shell} :
    Acts (Action.state >>= rest) shell log x ↔ Acts (rest shell.state) shell log x := Iff.rfl

theorem acts_attempt_bind {rest : Except Interruption α → Action β}
    {x : Except Interruption β × Shell} :
    Acts (body.attempt >>= rest) shell log x ↔
      ∃ result next first later, log = first ++ later ∧ Acts body shell first (result, next) ∧
        Acts (rest result) next later x := by
  have hrun : Acts (body.attempt >>= rest) shell log x ↔
      (((body shell).bind fun r => .done (.ok r.1, r.2)).bind fun r =>
        (ExceptT.bindCont rest r.1).run r.2).Runs log x := Iff.rfl
  rw [hrun, Proc.bind_assoc, Proc.runs_bind]
  constructor
  · rintro ⟨⟨result, next⟩, first, later, rfl, hfirst, hlater⟩
    exact ⟨result, next, first, later, rfl, hfirst, hlater⟩
  · rintro ⟨result, next, first, later, rfl, hfirst, hlater⟩
    exact ⟨(result, next), first, later, rfl, hfirst, hlater⟩

theorem acts_onCopy {change : Shell → Shell} {x : Except Interruption α × Shell} :
    Acts (Action.onCopy change body) shell log x ↔
      ∃ result copy, Acts body (change shell) log (result, copy) ∧ x = (result, shell) := by
  have hrun : Acts (Action.onCopy change body) shell log x ↔
      (Proc.bind (body (change shell)) fun r => .done (r.1, shell)).Runs log x := Iff.rfl
  rw [hrun, Proc.runs_bind]
  constructor
  · rintro ⟨⟨result, copy⟩, first, rest, rfl, hfirst, rfl, rfl⟩
    rw [List.append_nil]
    exact ⟨result, copy, hfirst, rfl⟩
  · rintro ⟨result, copy, hbody, rfl⟩
    exact ⟨(result, copy), log, [], (List.append_nil _).symm, hbody, rfl, rfl⟩

/-- What follows is left out only after a crash. -/
theorem acts_ensuring {after : Shell → Shell} {x : Except Interruption α × Shell} :
    Acts (Action.ensuring after body) shell log x ↔
      (∃ final, Acts body shell log (.error .crash, final) ∧ x = (.error .crash, final)) ∨
      ∃ result final, result ≠ .error .crash ∧ Acts body shell log (result, final) ∧
        x = (result, after final) := by
  change (Proc.bind (body shell) _).Runs log x ↔ _
  rw [Proc.runs_bind]
  constructor
  · rintro ⟨⟨result, final⟩, first, rest, rfl, hfirst, hrest⟩
    split at hrest
    · rename_i hcrash
      cases hcrash
      obtain ⟨rfl, rfl⟩ := hrest
      rw [List.append_nil]
      exact .inl ⟨final, hfirst, rfl⟩
    · rename_i hcrash heq
      cases heq
      obtain ⟨rfl, rfl⟩ := hrest
      rw [List.append_nil]
      exact .inr ⟨result, final, hcrash, hfirst, rfl⟩
  · rintro (⟨final, hbody, rfl⟩ | ⟨result, final, hcrash, hbody, rfl⟩)
    · exact ⟨_, log, [], (List.append_nil _).symm, hbody, rfl, rfl⟩
    · refine ⟨(result, final), log, [], (List.append_nil _).symm, hbody, ?_⟩
      split
      · rename_i heq
        exact absurd (Prod.mk.inj heq).1 hcrash
      · rename_i heq
        cases heq
        exact ⟨rfl, rfl⟩

end

/-- What can be relied on from one action to the next.  What was kept so far is no excuse for an
interruption. -/
structure Contract where
  /-- The shells that an action may start in. -/
  ready : Shell → Prop
  keeps : Shell → Shell → Prop
  /-- How an action that was started in a shell may be interrupted. -/
  allows : Shell → Interruption → Prop
  refl : ∀ shell, keeps shell shell
  trans : ∀ {first second third}, keeps first second → keeps second third → keeps first third
  stays : ∀ {first second}, keeps first second → ready first → ready second
  inherits : ∀ {first second interruption}, keeps first second → allows second interruption →
    allows first interruption

namespace Contract

/-- An action that was started in a shell may end with this result and this shell. -/
structure Meets (contract : Contract) {α : Type} (shell : Shell) (result : Except Interruption α)
    (final : Shell) : Prop where
  kept : result ≠ .error .crash → contract.keeps shell final
  allowed : ∀ interruption, result = .error interruption → contract.allows shell interruption

def HoldsAt (contract : Contract) (shell : Shell) {α : Type} (body : Action α) : Prop :=
  ∀ log result final, Acts body shell log (result, final) → contract.Meets shell result final

def Holds (contract : Contract) {α : Type} (body : Action α) : Prop :=
  ∀ shell, contract.ready shell → contract.HoldsAt shell body

/-- Whatever keeps the one contract keeps the other. -/
structure Implies (contract weaker : Contract) : Prop where
  ready : ∀ shell, weaker.ready shell → contract.ready shell
  keeps : ∀ shell final, contract.keeps shell final → weaker.keeps shell final
  allows : ∀ shell interruption, contract.allows shell interruption →
    weaker.allows shell interruption

section

variable {contract weaker : Contract} {α β : Type} {shell next final : Shell}
variable {body : Action α}

theorem Meets.ok (h : contract.keeps shell final) (a : α) :
    contract.Meets shell (.ok a) final :=
  ⟨fun _ => h, fun _ he => by cases he⟩

theorem Meets.error {interruption : Interruption} (h : contract.keeps shell final)
    (hallows : contract.allows shell interruption) :
    contract.Meets shell (.error interruption : Except Interruption α) final :=
  ⟨fun _ => h, fun _ he => by cases he; exact hallows⟩

theorem Meets.keeps_ok {a : α} (h : contract.Meets shell (.ok a) final) :
    contract.keeps shell final := h.kept (by simp)

/-- What happened before does not count against what follows. -/
theorem Meets.after {result : Except Interruption α} (h : contract.Meets next result final)
    (hkeeps : contract.keeps shell next) : contract.Meets shell result final where
  kept hcrash := contract.trans hkeeps (h.kept hcrash)
  allowed interruption hresult := contract.inherits hkeeps (h.allowed interruption hresult)

/-- An interruption that goes on, perhaps as another one; a crash remains a crash. -/
theorem Meets.rethrow {inner : Contract} {interruption raised : Interruption}
    {log : List Exchange} {last : Except Interruption β}
    (h : inner.Meets shell (.error interruption : Except Interruption α) next)
    (hcrash : interruption = .crash → raised = .crash)
    (hkeeps : inner.keeps shell next → contract.keeps shell next)
    (hallows : contract.allows shell raised)
    (hacts : Acts (throw raised : Action β) next log (last, final)) :
    contract.Meets shell last final := by
  obtain ⟨rfl, hx⟩ := acts_throw.mp hacts
  cases hx
  refine ⟨fun hlast => hkeeps (h.kept ?_), fun i hi => ?_⟩
  · rintro heq
    cases heq
    exact hlast (congrArg _ (hcrash rfl))
  · cases hi
    exact hallows

theorem Meets.weaken {result : Except Interruption α} (h : contract.Meets shell result final)
    (himplies : contract.Implies weaker) : weaker.Meets shell result final where
  kept hcrash := himplies.keeps _ _ (h.kept hcrash)
  allowed interruption hresult := himplies.allows _ _ (h.allowed interruption hresult)

/-- What was set up for an action and is taken back after it.  After a crash nothing is taken
back. -/
theorem Meets.bracket {inner : Contract} {entered : Shell} {leave : Shell → Shell}
    {log : List Exchange} {result : Except Interruption α}
    (hacts : Acts (Action.ensuring leave body) entered log (result, final))
    (hbody : inner.HoldsAt entered body)
    (hkeeps : ∀ inside, inner.keeps entered inside → contract.keeps shell (leave inside))
    (hallows : ∀ interruption, inner.allows entered interruption →
      contract.allows shell interruption) : contract.Meets shell result final := by
  rcases acts_ensuring.mp hacts with ⟨inside, hcrash, hx⟩ | ⟨result, inside, hresult, hinside, hx⟩
  · cases hx
    refine ⟨fun h => absurd rfl h, fun i hi => ?_⟩
    cases hi
    exact hallows _ ((hbody _ _ _ hcrash).allowed _ rfl)
  · cases hx
    have houtcome := hbody _ _ _ hinside
    exact ⟨fun _ => hkeeps _ (houtcome.kept hresult),
      fun i hi => hallows i (houtcome.allowed i hi)⟩

namespace HoldsAt

theorem throw {interruption : Interruption} (h : contract.allows shell interruption) :
    contract.HoldsAt shell (MonadExcept.throw interruption : Action α) := by
  intro log result final hacts
  obtain ⟨rfl, hx⟩ := acts_throw.mp hacts
  cases hx
  exact .error (contract.refl shell) h

theorem get_bind {rest : Shell → Action β} (h : contract.HoldsAt shell (rest shell)) :
    contract.HoldsAt shell (get >>= rest) := h

theorem state_bind {rest : State → Action β} (h : contract.HoldsAt shell (rest shell.state)) :
    contract.HoldsAt shell (Action.state >>= rest) := h

theorem bind {rest : α → Action β} (hbody : contract.HoldsAt shell body)
    (hrest : ∀ log a next, Acts body shell log (.ok a, next) → contract.keeps shell next →
      contract.HoldsAt next (rest a)) :
    contract.HoldsAt shell (body >>= rest) := by
  intro log result final hacts
  rcases acts_bind.mp hacts with ⟨e, s', hx, hfirst⟩ | ⟨a, s', first, later, rfl, hfirst, hlater⟩
  · cases hx
    obtain ⟨hkept, hallowed⟩ := hbody _ _ _ hfirst
    exact ⟨fun hcrash => hkept (by simpa using hcrash), fun i hi => hallowed i (by simpa using hi)⟩
  · have hkeeps := (hbody _ _ _ hfirst).keeps_ok
    exact (hrest first a s' hfirst hkeeps _ _ _ hlater).after hkeeps

/-- A program that knows nothing of the shell, and what is made of its results. -/
theorem ofProc_bind {p : Proc α} {rest : α → Action β}
    (h : ∀ log a, p.Runs log a → contract.HoldsAt shell (rest a)) :
    contract.HoldsAt shell (Action.ofProc (p.bind fun a => .done (.ok a)) >>= rest) := by
  intro log result final hacts
  rcases acts_bind.mp hacts with ⟨e, s', _, hfirst⟩ | ⟨a, s', first, later, rfl, hfirst, hlater⟩
  · obtain ⟨_, _, _, _, hruns, _, hx⟩ := Proc.runs_bind.mp hfirst
    cases hx
    obtain ⟨_, _, _, _, _, _, hx⟩ := Proc.runs_bind.mp hruns
    cases hx
  · obtain ⟨_, _, _, _, hruns, _, hx⟩ := Proc.runs_bind.mp hfirst
    cases hx
    obtain ⟨a, _, _, _, hruns, _, hx⟩ := Proc.runs_bind.mp hruns
    cases hx
    exact h _ a hruns _ _ _ hlater

theorem modify_bind {f : Shell → Shell} {rest : PUnit → Action β}
    (hkeeps : contract.keeps shell (f shell)) (h : contract.HoldsAt (f shell) (rest ())) :
    contract.HoldsAt shell (modify f >>= rest) :=
  fun log result final hacts => (h log result final hacts).after hkeeps

theorem attempt_bind {inner : Contract} {rest : Except Interruption α → Action β}
    (hbody : inner.HoldsAt shell body)
    (hrest : ∀ result next log last final, inner.Meets shell result next →
      Acts (rest result) next log (last, final) → contract.Meets shell last final) :
    contract.HoldsAt shell (body.attempt >>= rest) := by
  intro log result final hacts
  obtain ⟨r, next, first, later, rfl, hfirst, hlater⟩ := acts_attempt_bind.mp hacts
  exact hrest r next later result final (hbody _ _ _ hfirst) hlater

end HoldsAt

namespace Holds

theorem weaken (h : contract.Holds body) (himplies : contract.Implies weaker) :
    weaker.Holds body :=
  fun shell hready log result final hacts =>
    (h shell (himplies.ready shell hready) log result final hacts).weaken himplies

theorem pure (a : α) : contract.Holds (Pure.pure a) := by
  intro shell _ log result final hacts
  obtain ⟨rfl, hx⟩ := acts_pure.mp hacts
  cases hx
  exact .ok (contract.refl shell) a

theorem throw {interruption : Interruption}
    (h : ∀ shell, contract.ready shell → contract.allows shell interruption) :
    contract.Holds (MonadExcept.throw interruption : Action α) :=
  fun shell hready => .throw (h shell hready)

theorem bind {rest : α → Action β} (hbody : contract.Holds body)
    (hrest : ∀ a, contract.Holds (rest a)) : contract.Holds (body >>= rest) :=
  fun shell hready => (hbody shell hready).bind fun _ a next _ hkeeps =>
    hrest a next (contract.stays hkeeps hready)

theorem get_bind {rest : Shell → Action β} (h : ∀ shell, contract.Holds (rest shell)) :
    contract.Holds (get >>= rest) :=
  fun shell hready => h shell shell hready

/-- An interruption of an action that a contract holds of. -/
theorem interrupted {interruption : Interruption} {log : List Exchange}
    (hacts : Acts body shell log (.error interruption, final)) (hready : contract.ready shell)
    (h : contract.Holds body) : contract.allows shell interruption :=
  (h shell hready _ _ _ hacts).allowed _ rfl

theorem state_bind {rest : State → Action β} (h : ∀ state, contract.Holds (rest state)) :
    contract.Holds (Action.state >>= rest) :=
  fun shell hready => h shell.state shell hready

theorem modify {f : Shell → Shell}
    (h : ∀ shell, contract.ready shell → contract.keeps shell (f shell)) :
    contract.Holds (modify f : Action PUnit) := by
  intro shell hready log result final hacts
  obtain ⟨rfl, hx⟩ : log = [] ∧ (result, final) = (.ok (), f shell) := hacts
  cases hx
  exact .ok (h shell hready) ()

theorem modifyState {f : State → State}
    (h : ∀ shell, contract.ready shell →
      contract.keeps shell { shell with state := f shell.state }) :
    contract.Holds (Action.modifyState f) := modify h

/-- What a program that knows nothing of the shell does to it. -/
theorem lift (p : Proc α) : contract.Holds (liftM p : Action α) := by
  intro shell _ log result final hacts
  obtain ⟨a, _, hx⟩ := acts_lift.mp hacts
  cases hx
  exact .ok (contract.refl shell) a

theorem ofProc {p : Proc (Except Interruption α)}
    (h : ∀ log interruption, p.Runs log (.error interruption) →
      ∀ shell, contract.allows shell interruption) : contract.Holds (Action.ofProc p) := by
  intro shell _ log result final hacts
  obtain ⟨a, first, rest, rfl, hfirst, rfl, hx⟩ := Proc.runs_bind.mp hacts
  cases hx
  exact ⟨fun _ => contract.refl shell, fun i hi => h first i (by rwa [← hi]) shell⟩

theorem ofProc_ok {p : Proc α} :
    contract.Holds (Action.ofProc (p.bind fun a => .done (.ok a))) := by
  refine ofProc fun log interruption hruns => ?_
  obtain ⟨_, _, _, _, _, _, hx⟩ := Proc.runs_bind.mp hruns
  cases hx

theorem discard (h : contract.Holds body) :
    contract.Holds (Functor.discard body : Action PUnit) := by
  intro shell hready log result final hacts
  obtain ⟨inner, next, hbody, hx⟩ := acts_discard.mp hacts
  cases hx
  obtain ⟨hkept, hallowed⟩ := h shell hready _ _ _ hbody
  cases inner with
  | ok a => exact .ok (hkept (by simp)) _
  | error e =>
      refine ⟨fun hcrash => hkept ?_, fun i hi => hallowed i ?_⟩
      · rintro heq
        cases heq
        exact hcrash rfl
      · cases hi
        rfl

theorem request (r : Request) : contract.Holds (Action.request r) := by
  intro shell _ log result final hacts
  obtain ⟨reply, _, rfl, rfl, hx⟩ := hacts
  cases hx
  exact .ok (contract.refl shell) reply

/-! ### Lists -/

theorem foldlM {f : β → α → Action β} (items : List α)
    (h : ∀ acc, ∀ a ∈ items, contract.Holds (f acc a)) (start : β) :
    contract.Holds (items.foldlM f start) := by
  induction items generalizing start with
  | nil => exact pure start
  | cons a items ih =>
      rw [List.foldlM_cons]
      exact (h start a (by simp)).bind fun b =>
        ih (fun acc a ha => h acc a (List.mem_cons_of_mem _ ha)) b

theorem mapM {f : α → Action β} (items : List α) (h : ∀ a ∈ items, contract.Holds (f a)) :
    contract.Holds (items.mapM f) := by
  induction items with
  | nil => exact pure []
  | cons a items ih =>
      rw [List.mapM_cons]
      exact (h a (by simp)).bind fun b =>
        (ih fun a ha => h a (List.mem_cons_of_mem _ ha)).bind fun rest => pure (b :: rest)

theorem flatMapM {f : α → Action (List β)} (items : List α)
    (h : ∀ a ∈ items, contract.Holds (f a)) : contract.Holds (items.flatMapM f) := by
  induction items with
  | nil => exact pure []
  | cons a items ih =>
      rw [List.flatMapM_cons]
      exact (h a (by simp)).bind fun b =>
        (ih fun a ha => h a (List.mem_cons_of_mem _ ha)).bind fun rest => pure (b ++ rest)

theorem forM {f : α → Action PUnit} (items : List α) (h : ∀ a ∈ items, contract.Holds (f a)) :
    contract.Holds (items.forM f) := by
  induction items with
  | nil => exact pure ()
  | cons a items ih =>
      exact (h a (by simp)).bind fun _ => ih fun a ha => h a (List.mem_cons_of_mem _ ha)

/-! ### Copies -/

/-- What is done to a copy of the shell does not reach it. -/
theorem onCopy {change : Shell → Shell} (h : ∀ shell log interruption final,
      Acts body (change shell) log (.error interruption, final) →
        contract.allows shell interruption) :
    contract.Holds (Action.onCopy change body) := by
  intro shell _ log result final hacts
  obtain ⟨r, copy, hbody, hx⟩ := acts_onCopy.mp hacts
  cases hx
  exact ⟨fun _ => contract.refl shell, fun i hi => h shell log i copy (by rwa [← hi])⟩

end Holds

end

end Contract

end Conch
