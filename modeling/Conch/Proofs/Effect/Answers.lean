import Conch.Proofs.Effect.Runs

/-!
# Deterministic surroundings

Surroundings are deterministic if every reply, and the number of every task, is determined
by the exchanges before it.  In such surroundings a program makes the same exchanges and
comes to the same result each time it is run (`Runs.unique`).
-/

namespace Conch

/-- How the surroundings answer, given the exchanges so far. -/
structure Surroundings where
  reply : List Exchange → (r : Request) → r.Reply
  task : List Exchange → TaskId

namespace Surroundings

/-- Nothing is there, and nothing fails. -/
def quiet : Surroundings where
  task _ := 0
  reply _ := fun
    | .call (.describe _) | .call (.canonical _) => none
    | .call (.exists _) | .isClosed _ => false
    | .call (.list _) | .call (.read ..) | .read .. | .receiveUntil .. => .ok []
    | .call (.openFile ..) | .send .. => .ok 0
    | .call (.write ..) | .write .. => .ok ()
    | .newBuffer | .newPipe _ | .newInput _ => 0
    | .contents _ | .receive .. => []
    | .join _ => .leftover []
    | .isFinished _ => true
    | .closePipe _ | .unread .. | .openLatch _ | .awaitLatch _ | .awaitJobs _ | .command => ()

variable {surroundings : Surroundings} {before first rest : List Exchange}

/-- They have answered this exchange. -/
def Answers (surroundings : Surroundings) (before : List Exchange) : Exchange → Prop
  | .asked r reply => reply = surroundings.reply before r
  | .started _ _ id => id = surroundings.task before

/-- They have answered these exchanges one after the other. -/
def Gives (surroundings : Surroundings) : List Exchange → List Exchange → Prop
  | _, [] => True
  | before, exchange :: rest =>
      surroundings.Answers before exchange ∧ surroundings.Gives (before ++ [exchange]) rest

theorem gives_append : surroundings.Gives before (first ++ rest) ↔
    surroundings.Gives before first ∧ surroundings.Gives (before ++ first) rest := by
  induction first generalizing before with
  | nil => simp [Gives]
  | cons exchange first ih => simp [Gives, ih, and_assoc]

end Surroundings

namespace Proc

variable {surroundings : Surroundings} {before log log' : List Exchange}

/-- Two given runs of a program are the same. -/
def Unique {α : Type} (surroundings : Surroundings) (p : Proc α) : Prop :=
  ∀ before log log' a a', p.Runs log a → p.Runs log' a' → surroundings.Gives before log →
    surroundings.Gives before log' → log = log' ∧ a = a'

theorem Repeats.unique {σ τ : Type} {body : σ → Proc (σ ⊕ τ)} {s : σ} {last last' : τ}
    (hbody : ∀ s, Unique surroundings (body s)) (h : Repeats (fun s => (body s).Runs) s log last)
    (h' : Repeats (fun s => (body s).Runs) s log' last') (hgives : surroundings.Gives before log)
    (hgives' : surroundings.Gives before log') : log = log' ∧ last = last' := by
  induction h generalizing before log' with
  | stop hround =>
      cases h' with
      | stop hround' =>
          obtain ⟨hlog, hlast⟩ := hbody _ _ _ _ _ _ hround hround' hgives hgives'
          exact ⟨hlog, Sum.inr.inj hlast⟩
      | again hround' _ =>
          obtain ⟨_, hlast⟩ := hbody _ _ _ _ _ _ hround hround' hgives
            (Surroundings.gives_append.mp hgives').1
          cases hlast
  | again hround _ ih =>
      obtain ⟨hgives, hrest⟩ := Surroundings.gives_append.mp hgives
      cases h' with
      | stop hround' =>
          obtain ⟨_, hlast⟩ := hbody _ _ _ _ _ _ hround hround' hgives hgives'
          cases hlast
      | again hround' hmore =>
          obtain ⟨hgives', hrest'⟩ := Surroundings.gives_append.mp hgives'
          obtain ⟨rfl, hnext⟩ := hbody _ _ _ _ _ _ hround hround' hgives hgives'
          cases hnext
          obtain ⟨rfl, rfl⟩ := ih hmore hrest hrest'
          exact ⟨rfl, rfl⟩

theorem unique {α : Type} (surroundings : Surroundings) (p : Proc α) : Unique surroundings p := by
  induction p with
  | done b =>
      rintro before log log' a a' ⟨rfl, rfl⟩ ⟨rfl, rfl⟩ _ _
      exact ⟨rfl, rfl⟩
  | ask r k ih =>
      rintro before _ _ a a' ⟨reply, rest, rfl, hrest⟩ ⟨reply', rest', rfl, hrest'⟩
        ⟨hreply, hgives⟩ ⟨hreply', hgives'⟩
      obtain rfl : reply = reply' := hreply.trans hreply'.symm
      obtain ⟨rfl, rfl⟩ := ih _ _ _ _ _ _ hrest hrest' hgives hgives'
      exact ⟨rfl, rfl⟩
  | fork isJob task k _ ih =>
      rintro before _ _ a a' ⟨id, rest, rfl, hrest⟩ ⟨id', rest', rfl, hrest'⟩
        ⟨hid, hgives⟩ ⟨hid', hgives'⟩
      obtain rfl : id = id' := hid.trans hid'.symm
      obtain ⟨rfl, rfl⟩ := ih _ _ _ _ _ _ hrest hrest' hgives hgives'
      exact ⟨rfl, rfl⟩
  | iterate body start k hbody ih =>
      rintro before _ _ a a' ⟨last, first, rest, rfl, hrounds, hrest⟩
        ⟨last', first', rest', rfl, hrounds', hrest'⟩ hgives hgives'
      obtain ⟨hfirst, hgives⟩ := Surroundings.gives_append.mp hgives
      obtain ⟨hfirst', hgives'⟩ := Surroundings.gives_append.mp hgives'
      obtain ⟨rfl, rfl⟩ := hrounds.unique hbody hrounds' hfirst hfirst'
      obtain ⟨rfl, rfl⟩ := ih _ _ _ _ _ _ hrest hrest' hgives hgives'
      exact ⟨rfl, rfl⟩

/-- A program that is run twice in the same surroundings makes the same exchanges. -/
theorem Runs.unique {α : Type} {p : Proc α} {a a' : α} (h : p.Runs log a) (h' : p.Runs log' a')
    (hgives : surroundings.Gives before log) (hgives' : surroundings.Gives before log') :
    log = log' ∧ a = a' :=
  Proc.unique surroundings p before log log' a a' h h' hgives hgives'

end Proc

end Conch
