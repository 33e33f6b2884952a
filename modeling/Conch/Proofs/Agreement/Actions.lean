import Conch.Proofs.Effect.Mirrors
import Conch.Shell.Job

/-!
# Actions that agree

An interpreter with other parts executes a statement in the same way as long as the
parts do the same where they are used.  Two actions agree on the shells of a level (the
limits and the depth of calls) if they are the same tree there and leave the shell on the
level.  With it goes what is known of the tree: which statuses come up in it, as long as
they do in the tasks that are joined, whether it can end in a crash, and whether it comes
to an end.  The lemmas below take actions apart.
-/

namespace Conch

/-- What decides how far calls may still nest. -/
structure Level where
  limits : Limits
  callDepth : Nat

def Shell.level (shell : Shell) : Level := ⟨shell.limits, shell.state.callDepth⟩

/-! ## Statuses -/

/-- The status with which a function or the shell is left. -/
def Interruption.status? : Interruption → Option Int
  | leaveFunction status | leaveShell status => some status
  | _ => none

/-- The property holds of the result, or of the status that an interruption carries. -/
def Carries (statuses : Int → Prop) {α : Type} (Q : α → Prop) : Except Interruption α → Prop
  | .ok a => Q a
  | .error interruption => ∀ status, interruption.status? = some status → statuses status

/-- What is known of a shell at all times: its dialect, and the statuses that it holds. -/
structure Holding where
  dialect : Dialect
  statuses : Int → Prop
  /-- The status of a substitution may be left over from an earlier command. -/
  leftover : Prop

/-- The statuses are that of the last command, and that of a substitution. -/
structure Shell.Holds (holding : Holding) (shell : Shell) : Prop where
  dialect : shell.dialect = holding.dialect
  status : holding.statuses shell.state.status
  substitution : ¬holding.leftover →
    ∀ status, shell.substitutionStatus = some status → holding.statuses status

/-- The statuses with which a task ends. -/
def Outcome.Keeps (statuses : Int → Prop) : Outcome → Prop
  | .shell result state => Carries statuses statuses result ∧ statuses state.status
  | _ => True

section

variable {statuses : Int → Prop} {holding : Holding} {shell : Shell}

theorem Shell.Holds.fork (h : shell.Holds holding) : shell.fork.Holds holding :=
  ⟨h.dialect, h.status, fun _ _ hnone => nomatch hnone⟩

/-- Nothing else of the shell matters. -/
theorem Shell.Holds.congr {other : Shell} (h : shell.Holds holding)
    (hsame : (other.dialect, other.state.status, other.substitutionStatus) =
      (shell.dialect, shell.state.status, shell.substitutionStatus)) : other.Holds holding := by
  simp only [Prod.mk.injEq] at hsame
  obtain ⟨hdialect, hstatus, hsubstitution⟩ := hsame
  exact ⟨hdialect.trans h.dialect, hstatus ▸ h.status, hsubstitution ▸ h.substitution⟩

theorem Outcome.keeps_of_all (hall : ∀ status, statuses status) (outcome : Outcome) :
    outcome.Keeps statuses := by
  cases outcome with
  | shell result state =>
      refine ⟨?_, hall _⟩
      cases result with
      | ok status => exact hall status
      | error interruption => exact fun status _ => hall status
  | _ => trivial

end

/-- What is known of an interpreter: the statuses that can come up, whether it can crash, and
whether it comes to an end.  That it neither crashes nor goes on for ever is known only
where no status is ruled out. -/
structure Terms extends Holding where
  crashes : Prop
  ends : Prop
  bytes : ∀ status, 0 ≤ status → status < 256 → statuses status
  free : crashes ∧ ¬ends ∨ ∀ status, statuses status

namespace Terms

/-- No status is ruled out. -/
def any (dialect : Dialect) (crashes ends : Prop) : Terms :=
  ⟨⟨dialect, fun _ => True, False⟩, crashes, ends, fun _ _ _ => trivial, .inr fun _ => trivial⟩

variable (terms : Terms)

/-- The same after a crash. -/
def crashing : Terms :=
  { terms with crashes := True, free := terms.free.imp_left fun h => ⟨trivial, h.2⟩ }

/-- The same once a command has forgotten the substitutions before it. -/
def settled : Terms := { terms with leftover := False }

/-- How tasks end. -/
def promise : Outcome → Prop := Outcome.Keeps terms.statuses

variable {terms}

theorem free_of_ends (h : terms.ends) (status : Int) : terms.statuses status :=
  terms.free.elim (fun hfree => absurd h hfree.2) fun hall => hall status

theorem status_of_nat {n : Nat} (h : n < 256) : terms.statuses n :=
  terms.bytes n (Int.natCast_nonneg n) (by omega)

end Terms

/-! ## Agreement -/

/-- The trees are the same as long as the tasks that they join keep to the terms, and they keep to
them themselves; where no status is ruled out, they are the same in any case. -/
structure Proc.Accord (terms : Terms) {α : Type} (P : α → Prop) (p q : Proc α) : Prop where
  mirrors : p.Mirrors terms.promise P q
  free : (∀ status, terms.statuses status) → p = q ∧ p.Returns P
  ends : terms.ends → p.Terminates

/-- The shell is on the level and holds only such statuses. -/
structure Shell.Meets (holding : Holding) (level : Level) (shell : Shell) : Prop where
  level : shell.level = level
  holds : shell.Holds holding

/-- How an action ends on a level, which only a crash leaves. -/
structure Ends (holding : Holding) (level : Level) {α : Type} (Q : α → Prop)
    (x : Except Interruption α × Shell) : Prop where
  carries : Carries holding.statuses Q x.1
  holds : x.2.Holds holding
  level : x.1 ≠ .error .crash → x.2.level = level

/-- The trees are the same in this sense; they crash only if that is possible at all. -/
structure Agree (terms : Terms) (level : Level) {α : Type} (Q : α → Prop)
    (p q : Proc (Except Interruption α × Shell)) : Prop
    extends p.Accord terms (Ends terms.toHolding level Q) q where
  crash : ∀ log final, p.Runs log (.error .crash, final) → terms.crashes

/-- The actions agree on every shell of the level. -/
def Alike (terms : Terms) (level : Level) {α : Type} (Q : α → Prop) (body other : Action α) :
    Prop :=
  ∀ shell, shell.Meets terms.toHolding level →
    Agree terms level Q (body shell) (other shell)

theorem Shell.meets_any (shell : Shell) (crashes ends : Prop) :
    shell.Meets (Terms.any shell.dialect crashes ends).toHolding shell.level :=
  ⟨rfl, rfl, trivial, fun _ _ _ => trivial⟩

section

variable {terms : Terms} {level : Level} {α β : Type} {P : α → Prop} {Q : β → Prop}

theorem Ends.meets {holding : Holding} {x : Except Interruption α × Shell}
    (h : Ends holding level P x) (hresult : x.1 ≠ .error .crash) :
    x.2.Meets holding level := ⟨h.level hresult, h.holds⟩

namespace Proc.Accord

variable {p q : Proc α}

theorem done {a : α} (h : P a) : (Proc.done a).Accord terms P (.done a) :=
  ⟨.done h, fun _ => ⟨rfl, h⟩, fun _ => .done a⟩

theorem left (h : p.Accord terms P q) : p.Accord terms P p :=
  ⟨h.mirrors.left, fun hfree => ⟨rfl, (h.free hfree).2⟩, h.ends⟩

theorem ask {r : Request} {k k' : r.Reply → Proc α}
    (h : ∀ reply, r.Admits terms.promise reply → (k reply).Accord terms P (k' reply)) :
    (Proc.ask r k).Accord terms P (.ask r k') := by
  have hall : (∀ status, terms.statuses status) → ∀ reply, r.Admits terms.promise reply := by
    intro hfree reply
    cases r with
    | join task => exact Outcome.keeps_of_all hfree reply
    | _ => trivial
  refine ⟨.ask fun reply hreply => (h reply hreply).mirrors, fun hfree => ?_,
    fun hends => .ask fun reply => (h reply (hall (terms.free_of_ends hends) reply)).ends hends⟩
  have hrest : ∀ reply, k reply = k' reply ∧ (k reply).Returns P := fun reply =>
    (h reply (hall hfree reply)).free hfree
  exact ⟨congrArg _ (funext fun reply => (hrest reply).1), fun reply => (hrest reply).2⟩

theorem bind {f g : α → Proc β} (h : p.Accord terms P q)
    (hnext : ∀ a, P a → (f a).Accord terms Q (g a)) : (p.bind f).Accord terms Q (q.bind g) := by
  refine ⟨h.mirrors.bind fun a ha => (hnext a ha).mirrors, fun hfree => ?_, fun hends =>
    (h.ends hends).bind (h.free (terms.free_of_ends hends)).2 fun a ha => (hnext a ha).ends hends⟩
  obtain ⟨rfl, hreturns⟩ := h.free hfree
  exact ⟨Proc.bind_congr (hreturns.mono fun a ha => ((hnext a ha).free hfree).1),
    hreturns.bind fun a ha => ((hnext a ha).free hfree).2⟩

theorem of_asks (hp : p.Asks) (hP : p.Returns P) : p.Accord terms P p :=
  ⟨hp.keeps hP, fun _ => ⟨rfl, hP⟩, fun _ => hp.terminates⟩

end Proc.Accord

namespace Agree

theorem done {result : Except Interruption α} {final : Shell} (hresult : result ≠ .error .crash)
    (hcarries : Carries terms.statuses P result) (hfinal : final.Meets terms.toHolding level) :
    Agree terms level P (.done (result, final)) (.done (result, final)) where
  toAccord := .done ⟨hcarries, hfinal.holds, fun _ => hfinal.level⟩
  crash _ _ hruns := by
    obtain ⟨_, hx⟩ := hruns
    exact absurd (Prod.mk.inj hx).1.symm hresult

theorem ok {a : α} {final : Shell} (ha : P a) (hfinal : final.Meets terms.toHolding level) :
    Agree terms level P (.done (.ok a, final)) (.done (.ok a, final)) :=
  done (by simp) ha hfinal

theorem left {p q : Proc (Except Interruption α × Shell)} (h : Agree terms level P p q) :
    Agree terms level P p p := ⟨h.toAccord.left, h.crash⟩

/-- What is settled within a command may be left over afterwards. -/
theorem of_settled {p q : Proc (Except Interruption α × Shell)}
    (h : Agree terms.settled level P p q) : Agree terms level P p q := by
  have hends : ∀ x, Ends terms.settled.toHolding level P x → Ends terms.toHolding level P x :=
    fun x hx => ⟨hx.carries, ⟨hx.holds.dialect, hx.holds.status, fun _ =>
      hx.holds.substitution not_false⟩, hx.level⟩
  exact ⟨⟨h.mirrors.mono hends, fun hfree => (h.free hfree).imp_right fun hreturns =>
    hreturns.mono hends, h.ends⟩, h.crash⟩

/-- Where no status is ruled out, the trees are the same. -/
theorem same {dialect : Dialect} {crashes ends : Prop} {p q : Proc (Except Interruption α × Shell)}
    (h : Agree (.any dialect crashes ends) level P p q) : p = q := (h.free fun _ => trivial).1

/-- Of what a crash leaves nothing is asked. -/
theorem crashed {final : Shell} (h : final.Holds terms.toHolding) :
    Agree terms.crashing level P (.done ((.error .crash : Except Interruption α), final))
      (.done (.error .crash, final)) where
  toAccord := .done ⟨fun _ hnone => (nomatch hnone), h, fun hcrash => absurd rfl hcrash⟩
  crash _ _ _ := trivial

/-- What follows has to agree on the results, and after a crash on the trees alone. -/
theorem bind {inner : Level} {p q : Proc (Except Interruption α × Shell)}
    {f g : Except Interruption α × Shell → Proc (Except Interruption β × Shell)}
    (h : Agree terms inner P p q)
    (hnext : ∀ result final, result ≠ .error .crash → Carries terms.statuses P result →
      final.Meets terms.toHolding inner →
        Agree terms level Q (f (result, final)) (g (result, final)))
    (hcrash : ∀ final, final.Holds terms.toHolding →
      Agree terms.crashing level Q (f (.error .crash, final)) (g (.error .crash, final))) :
    Agree terms level Q (p.bind f) (q.bind g) := by
  refine ⟨h.toAccord.bind fun x hx => ?_, fun log final hruns => ?_⟩
  · obtain ⟨result, final⟩ := x
    by_cases hresult : result = .error .crash
    · subst hresult
      obtain ⟨⟨hmirrors, hfree, hends⟩, _⟩ := hcrash final hx.holds
      exact ⟨hmirrors, hfree, hends⟩
    · exact (hnext result final hresult hx.carries (hx.meets hresult)).toAccord
  · rcases terms.free with hcrashes | hfree
    · exact hcrashes.1
    obtain ⟨⟨result, middle⟩, first, rest, _, hfirst, hrest⟩ := Proc.runs_bind.mp hruns
    by_cases hresult : result = .error .crash
    · subst hresult
      exact h.crash _ _ hfirst
    · have hmiddle := (h.free hfree).2.of_runs hfirst
      exact (hnext result middle hresult hmiddle.carries (hmiddle.meets hresult)).crash _ _ hrest

/-- What follows an action has to agree where that is not interrupted. -/
theorem andThen {body other : Action α} {rest rest' : α → Action β} {shell : Shell}
    (h : Agree terms level P (body shell) (other shell))
    (hrest : ∀ a final, P a → final.Meets terms.toHolding level →
      Agree terms level Q (rest a final) (rest' a final)) :
    Agree terms level Q ((body >>= rest) shell) ((other >>= rest') shell) := by
  refine h.bind (fun result final hresult hcarries hfinal => ?_) (fun final => .crashed)
  cases result with
  | ok a => exact hrest a final hcarries hfinal
  | error interruption => exact .done (by simpa using hresult) hcarries hfinal

theorem state_bind {rest rest' : State → Action α} {shell : Shell}
    (h : Agree terms level P (rest shell.state shell) (rest' shell.state shell)) :
    Agree terms level P ((Action.state >>= rest) shell) ((Action.state >>= rest') shell) := h

/-- What follows a program that knows nothing of the shell. -/
theorem after {p : Proc β} {f g : β → Proc (Except Interruption α × Shell)} (hp : p.Asks)
    (hQ : p.Returns Q) (hnext : ∀ b, Q b → Agree terms level P (f b) (g b)) :
    Agree terms level P (p.bind f) (p.bind g) := by
  refine ⟨(Proc.Accord.of_asks hp hQ).bind fun b hb => (hnext b hb).toAccord,
    fun log final hruns => ?_⟩
  obtain ⟨b, first, rest, _, hfirst, hrest⟩ := Proc.runs_bind.mp hruns
  exact (hnext b (hQ.of_runs hfirst)).crash _ _ hrest

/-- What is always done afterwards, unless the action crashed. -/
theorem ensuring {inner : Level} {after : Shell → Shell} {body other : Action α} {shell : Shell}
    (h : Agree terms inner P (body shell) (other shell))
    (hafter : ∀ final, final.Meets terms.toHolding inner →
      (after final).Meets terms.toHolding level) :
    Agree terms level P (Action.ensuring after body shell)
      (Action.ensuring after other shell) := by
  refine h.bind (fun result final hresult hcarries hfinal => ?_) (fun final => crashed)
  cases result with
  | ok a => exact ok hcarries (hafter final hfinal)
  | error interruption =>
      cases interruption with
      | crash => exact absurd rfl hresult
      | _ => exact done hresult hcarries (hafter final hfinal)

/-- What is set up for an action and taken back afterwards. -/
theorem bracket {inner : Level} {enter leave : Shell → Shell} {body other : Action α}
    {shell : Shell} (h : Alike terms inner P body other)
    (henter : (enter shell).Meets terms.toHolding inner)
    (hleave : ∀ final, final.Meets terms.toHolding inner →
      (leave final).Meets terms.toHolding level) :
    Agree terms level P ((do modify enter; Action.ensuring leave body : Action α) shell)
      ((do modify enter; Action.ensuring leave other : Action α) shell) :=
  .ensuring (h _ henter) hleave

/-- An action whose result is looked at, be it an interruption. -/
theorem attempt_bind {inner : Level} {body other : Action α}
    {rest rest' : Except Interruption α → Action β} {shell : Shell}
    (h : Agree terms inner P (body shell) (other shell))
    (hrest : ∀ result final, result ≠ .error .crash → Carries terms.statuses P result →
      final.Meets terms.toHolding inner →
        Agree terms level Q (rest result final) (rest' result final))
    (hcrash : ∀ final, final.Holds terms.toHolding →
      Agree terms.crashing level Q (rest (.error .crash) final) (rest' (.error .crash) final)) :
    Agree terms level Q ((body.attempt >>= rest) shell) ((other.attempt >>= rest') shell) := by
  have hbody : ∀ (action : Action α) (next : Except Interruption α → Action β),
      (action.attempt >>= next) shell = (action shell).bind fun x => next x.1 x.2 := by
    intro action next
    change ((action shell).bind fun x => .done (.ok x.1, x.2)).bind
      (fun x => (ExceptT.bindCont next x.1).run x.2) = _
    rw [Proc.bind_assoc]
    rfl
  rw [hbody, hbody]
  exact h.bind hrest hcrash

end Agree

namespace Alike

variable {body other : Action α} {rest rest' : α → Action β}

theorem pure {a : α} (h : P a) :
    Alike terms level P (Pure.pure a : Action α) (Pure.pure a) :=
  fun _ hshell => .ok h hshell

theorem throw {interruption : Interruption} (h : interruption ≠ .crash)
    (hstatus : ∀ status, interruption.status? = some status → terms.statuses status) :
    Alike terms level P (MonadExcept.throw interruption : Action α)
      (MonadExcept.throw interruption) :=
  fun _ hshell => .done (by simpa using h) hstatus hshell

/-- An interruption that carries no status. -/
theorem fail {interruption : Interruption} (h : interruption ≠ .crash)
    (hstatus : interruption.status? = none) :
    Alike terms level P (MonadExcept.throw interruption : Action α)
      (MonadExcept.throw interruption) :=
  throw h fun status hsome => by simp [hstatus] at hsome

theorem bind (h : Alike terms level P body other)
    (hrest : ∀ a, P a → Alike terms level Q (rest a) (rest' a)) :
    Alike terms level Q (body >>= rest) (other >>= rest') :=
  fun shell hshell => (h shell hshell).andThen fun a final ha => hrest a ha final

/-- The same where nothing is known of the result. -/
theorem andThen (h : Alike terms level anything body other)
    (hrest : ∀ a, Alike terms level Q (rest a) (rest' a)) :
    Alike terms level Q (body >>= rest) (other >>= rest') :=
  h.bind fun a _ => hrest a

theorem get_bind {rest rest' : Shell → Action β}
    (h : ∀ shell, shell.Meets terms.toHolding level →
      Alike terms level Q (rest shell) (rest' shell)) :
    Alike terms level Q (get >>= rest) (get >>= rest') :=
  fun shell hshell => h shell hshell shell hshell

theorem state_bind {rest rest' : State → Action β}
    (h : ∀ state, terms.statuses state.status → Alike terms level Q (rest state) (rest' state)) :
    Alike terms level Q (Action.state >>= rest) (Action.state >>= rest') :=
  fun shell hshell => h shell.state hshell.holds.status shell hshell

theorem modify {f : Shell → Shell}
    (h : ∀ shell, shell.Meets terms.toHolding level → (f shell).Meets terms.toHolding level) :
    Alike terms level anything (modify f : Action PUnit) (modify f) :=
  fun shell hshell => .ok trivial (h shell hshell)

theorem modifyState {f : State → State} (h : ∀ state, (f state).callDepth = state.callDepth)
    (hstatus : ∀ state, terms.statuses state.status → terms.statuses (f state).status) :
    Alike terms level anything (Action.modifyState f) (Action.modifyState f) := by
  refine modify fun shell hshell => ⟨?_, hshell.holds.dialect,
    hstatus _ hshell.holds.status, hshell.holds.substitution⟩
  rw [← hshell.level, Shell.level, Shell.level, h]

theorem set (name value : String) :
    Alike terms level anything (Action.modifyState (·.set name value))
      (Action.modifyState (·.set name value)) := modifyState (fun _ => rfl) fun _ h => h

/-- A program that knows nothing of the shell. -/
theorem ofProc {p : Proc (Except Interruption α)}
    (hp : p.Accord terms (Carries terms.statuses P) p)
    (hcrash : ∀ log, p.Runs log (.error .crash) → terms.crashes) :
    Alike terms level P (Action.ofProc p) (Action.ofProc p) := by
  refine fun shell hshell => ⟨hp.bind fun result hresult => .done ⟨hresult, hshell.holds,
    fun _ => hshell.level⟩, fun log final hruns => ?_⟩
  obtain ⟨result, first, rest, _, hfirst, _, hx⟩ := Proc.runs_bind.mp hruns
  cases hx
  exact hcrash first hfirst

/-- The same with a program that only asks, and is not interrupted. -/
theorem ofAsks {p : Proc α} (hp : p.Asks) :
    Alike terms level anything (Action.ofProc (p.bind fun a => .done (.ok a)))
      (Action.ofProc (p.bind fun a => .done (.ok a))) := by
  refine ofProc ((Proc.Accord.of_asks hp (Proc.Returns.trivial p)).bind fun a _ => .done trivial)
    fun log hruns => ?_
  obtain ⟨_, _, _, _, _, _, hx⟩ := Proc.runs_bind.mp hruns
  cases hx

theorem request (r : Request) :
    Alike terms level (r.Admits terms.promise) (Action.request r) (Action.request r) := by
  refine fun shell hshell => ⟨.ask fun reply hreply => .done ⟨hreply, hshell.holds,
    fun _ => hshell.level⟩, ?_⟩
  rintro log final ⟨_, _, _, _, hx⟩
  cases hx

theorem request_bind (r : Request) {rest rest' : r.Reply → Action β}
    (hrest : ∀ reply, Alike terms level Q (rest reply) (rest' reply)) :
    Alike terms level Q (Action.request r >>= rest) (Action.request r >>= rest') :=
  (request r).bind fun reply _ => hrest reply

/-- Starts the same task. -/
theorem start_bind {isJob : Bool} {task task' : Proc Outcome} {rest rest' : TaskId → Action β}
    (htask : task.Accord terms terms.promise task')
    (hrest : ∀ id, Alike terms level Q (rest id) (rest' id)) :
    Alike terms level Q ((liftM (Proc.start isJob task) : Action TaskId) >>= rest)
      ((liftM (Proc.start isJob task') : Action TaskId) >>= rest') := by
  refine andThen (fun shell hshell => ?_) hrest
  have hended : ∀ id : TaskId, Ends terms.toHolding level anything (.ok id, shell) := fun id =>
    ⟨trivial, hshell.holds, fun _ => hshell.level⟩
  refine ⟨⟨.fork htask.mirrors fun id => .done (hended id), fun hfree => ?_, fun hends =>
    .fork (htask.ends hends) fun _ => .done _⟩, ?_⟩
  · obtain ⟨rfl, _⟩ := htask.free hfree
    exact ⟨rfl, hended⟩
  · rintro log final ⟨_, _, _, _, hx⟩
    cases hx

theorem discard (h : Alike terms level P body other) :
    Alike terms level anything (Functor.discard body : Action PUnit) (Functor.discard other) := by
  have hbind : ∀ action : Action α,
      (Functor.discard action : Action PUnit) = action >>= fun _ => Pure.pure () := fun _ => rfl
  rw [hbind, hbind]
  exact h.bind fun _ _ => pure trivial

theorem attempt_bind {rest rest' : Except Interruption α → Action β}
    (h : Alike terms level P body other)
    (hrest : ∀ result, result ≠ .error .crash → Carries terms.statuses P result →
      Alike terms level Q (rest result) (rest' result))
    (hcrash : ∀ final, final.Holds terms.toHolding →
      Agree terms.crashing level Q (rest (.error .crash) final) (rest' (.error .crash) final)) :
    Alike terms level Q (body.attempt >>= rest) (other.attempt >>= rest') :=
  fun shell hshell => (h shell hshell).attempt_bind (fun result final hresult hcarries =>
    hrest result hresult hcarries final) hcrash

/-- Only the result of an action on a copy matters. -/
theorem onCopy {inner : Level} {change : Shell → Shell} (h : Alike terms inner P body other)
    (hchange : ∀ shell, shell.Meets terms.toHolding level →
      (change shell).Meets terms.toHolding inner) :
    Alike terms level P (Action.onCopy change body) (Action.onCopy change other) :=
  fun shell hshell => (h _ (hchange shell hshell)).bind
    (fun _ _ hresult hcarries _ => .done hresult hcarries hshell)
    (fun _ _ => .crashed hshell.holds)

theorem ite {c : Prop} [Decidable c] {body' other' : Action α}
    (h : Alike terms level P body other) (h' : Alike terms level P body' other') :
    Alike terms level P (if c then body else body') (if c then other else other') := by
  split
  · exact h
  · exact h'

/-! ### Lists -/

theorem foldlM {f g : β → α → Action β} (items : List α)
    (h : ∀ acc, Q acc → ∀ a ∈ items, Alike terms level Q (f acc a) (g acc a)) {start : β}
    (hstart : Q start) : Alike terms level Q (items.foldlM f start) (items.foldlM g start) := by
  induction items generalizing start with
  | nil => exact pure hstart
  | cons a items ih =>
      rw [List.foldlM_cons, List.foldlM_cons]
      exact (h start hstart a (by simp)).bind fun b hb =>
        ih (fun acc hacc a ha => h acc hacc a (List.mem_cons_of_mem _ ha)) hb

theorem mapM {f g : α → Action β} (items : List α)
    (h : ∀ a ∈ items, Alike terms level anything (f a) (g a)) :
    Alike terms level anything (items.mapM f) (items.mapM g) := by
  induction items with
  | nil => exact pure trivial
  | cons a items ih =>
      rw [List.mapM_cons, List.mapM_cons]
      exact (h a (by simp)).andThen fun b =>
        (ih fun a ha => h a (List.mem_cons_of_mem _ ha)).andThen fun rest => pure trivial

theorem flatMapM {f g : α → Action (List β)} (items : List α)
    (h : ∀ a ∈ items, Alike terms level anything (f a) (g a)) :
    Alike terms level anything (items.flatMapM f) (items.flatMapM g) := by
  induction items with
  | nil => exact pure trivial
  | cons a items ih =>
      rw [List.flatMapM_cons, List.flatMapM_cons]
      exact (h a (by simp)).andThen fun b =>
        (ih fun a ha => h a (List.mem_cons_of_mem _ ha)).andThen fun rest => pure trivial

theorem forM {f g : α → Action PUnit} (items : List α)
    (h : ∀ a ∈ items, Alike terms level anything (f a) (g a)) :
    Alike terms level anything (items.forM f) (items.forM g) := by
  induction items with
  | nil => exact pure trivial
  | cons a items ih =>
      exact (h a (by simp)).andThen fun _ => ih fun a ha => h a (List.mem_cons_of_mem _ ha)

end Alike

end

end Conch
