import Conch.Builtin.Directory
import Conch.Proofs.Effect.Runs
import Conch.Proofs.Files.Paths

/-!
# Going about in directories

In a file system that does not change, a call of `cd` fails and changes nothing, or it goes
to a directory and keeps the one before it, and the variables say the same
(`cd_consistent`).  The directory is always a normal path, because dots are followed in the
text.  For the same reason two calls are as good as one.  What is not sure is the way back:
the shell may have been started in a directory that is gone (`started_nowhere`).
-/

namespace Conch

/-- What a file system that does not change knows of its paths. -/
structure FixedFiles where
  describe : (path : String) → Option Metadata
  canonical : (path : String) → Option String
  /-- A path without links is written without dots. -/
  normal : ∀ path, ∀ target ∈ canonical path, Path.IsNormal target

namespace FixedFiles

variable {files : FixedFiles} {α : Type} {a b : α}

def isDirectory (files : FixedFiles) (path : String) : Bool :=
  (files.describe path).any Metadata.isDirectory

/-- The file system gives this answer. -/
def Answers (files : FixedFiles) : Exchange → Prop
  | .asked (.call (.describe path)) reply => reply = files.describe path
  | .asked (.call (.canonical path)) reply => reply = files.canonical path
  | _ => False

/-- In this file system the program finishes with the result. -/
def Gives (files : FixedFiles) (p : Proc α) (a : α) : Prop :=
  ∃ log, (∀ exchange ∈ log, files.Answers exchange) ∧ p.Runs log a

theorem gives_done : files.Gives (.done b) a ↔ a = b := by
  constructor
  · rintro ⟨_, _, _, rfl⟩
    rfl
  · rintro rfl
    exact ⟨[], by simp, rfl, rfl⟩

/-- A program goes on with the answer that there is. -/
theorem gives_ask {r : Request} {answer : r.Reply} {k : r.Reply → Proc α}
    (hanswer : ∀ reply, files.Answers (.asked r reply) ↔ reply = answer) :
    files.Gives (.ask r k) a ↔ files.Gives (k answer) a := by
  constructor
  · rintro ⟨_, hlog, reply, rest, rfl, hruns⟩
    obtain rfl := (hanswer reply).mp (hlog _ (by simp))
    exact ⟨rest, fun exchange hexchange => hlog exchange (by simp [hexchange]), hruns⟩
  · rintro ⟨rest, hrest, hruns⟩
    refine ⟨.asked r answer :: rest, fun exchange hexchange => ?_, answer, rest, rfl, hruns⟩
    rcases List.mem_cons.mp hexchange with rfl | hexchange
    · exact (hanswer answer).mpr rfl
    · exact hrest exchange hexchange

theorem gives_describe {path : String} {k : Option Metadata → Proc α} :
    files.Gives (.ask (.call (.describe path)) k) a ↔ files.Gives (k (files.describe path)) a :=
  gives_ask fun _ => Iff.rfl

theorem gives_canonical {path : String} {k : Option String → Proc α} :
    files.Gives (.ask (.call (.canonical path)) k) a ↔ files.Gives (k (files.canonical path)) a :=
  gives_ask fun _ => Iff.rfl

end FixedFiles

namespace Builtin

variable {files : FixedFiles} {state after : State} {args : List String} {completion : Completion}

/-- Calls of `cd` lead from one state to another. -/
inductive Visits (files : FixedFiles) (start : State) : State → Prop where
  | start : Visits files start start
  | step {state after : State} {args : List String} {completion : Completion}
      (h : Visits files start state) (hcall : files.Gives (runCd state args) (completion, after)) :
      Visits files start after

/-! ## One call -/

/-- The path by which a directory is looked up. -/
def destination (state : State) (target : String) : String :=
  Path.normalize (if Path.isAbsolute target then target else state.directory ++ "/" ++ target)

/-- What a call comes to. -/
def outcome (files : FixedFiles) (state : State) (args : List String) : Completion × State :=
  match directoryTarget state (directoryOptions false args).2 with
  | none => (.failure "treesh: cd: HOME not set\n", state)
  | some (target, isWritten) =>
      let path := destination state target
      let failure (reason : String) :=
        Completion.failure ("treesh: cd: " ++ target ++ ": " ++ reason ++ "\n")
      match files.describe path with
      | none => (failure "No such file or directory", state)
      | some ⟨false, _⟩ => (failure "Not a directory", state)
      | some ⟨true, _⟩ =>
          let canonical := if (directoryOptions false args).1 then files.canonical path else none
          let directory := canonical.getD path
          (if isWritten then .success (directory ++ "\n") else .ok, enterDirectory state directory)

/-- There is one way for a call to go. -/
theorem gives_runCd {result : Completion × State} :
    files.Gives (runCd state args) result ↔ result = outcome files state args := by
  unfold runCd outcome destination
  generalize directoryOptions false args = options
  obtain ⟨physical, rest⟩ := options
  dsimp only
  cases directoryTarget state rest with
  | none => exact FixedFiles.gives_done
  | some found =>
      obtain ⟨target, isWritten⟩ := found
      dsimp only
      generalize Path.normalize _ = path
      refine FixedFiles.gives_describe.trans ?_
      rcases files.describe path with - | ⟨- | -, mode⟩
      · exact FixedFiles.gives_done
      · exact FixedFiles.gives_done
      · cases physical with
        | false => exact FixedFiles.gives_done
        | true => exact FixedFiles.gives_canonical.trans FixedFiles.gives_done

theorem isNormal_destination (state : State) (target : String) :
    Path.IsNormal (destination state target) :=
  Path.isNormal_normalize _

theorem destination_of_isNormal (state : State) {path : String} (h : Path.IsNormal path) :
    destination state path = path := by
  rw [destination, if_pos h.isAbsolute, Path.normalize_of_isNormal h]

theorem isNormal_canonical (files : FixedFiles) {path : String} (h : Path.IsNormal path)
    (physical : Bool) :
    Path.IsNormal ((if physical then files.canonical path else none).getD path) := by
  cases hlinks : if physical then files.canonical path else none with
  | none => exact h
  | some target =>
      cases physical with
      | false => cases hlinks
      | true => exact files.normal path target hlinks

/-- A call that fails changes nothing; another one goes to a normal path. -/
theorem outcome_cases (files : FixedFiles) (state : State) (args : List String) :
    (∃ errors, outcome files state args = (.failure errors, state)) ∨
      ∃ output directory, Path.IsNormal directory ∧
        outcome files state args = (.success output, enterDirectory state directory) := by
  unfold outcome
  cases directoryTarget state (directoryOptions false args).2 with
  | none => exact .inl ⟨_, rfl⟩
  | some found =>
      obtain ⟨target, isWritten⟩ := found
      have hdirectory := isNormal_canonical files (isNormal_destination state target)
        (directoryOptions false args).1
      dsimp only
      rcases files.describe (destination state target) with - | ⟨- | -, mode⟩
      · exact .inl ⟨_, rfl⟩
      · exact .inl ⟨_, rfl⟩
      · cases isWritten with
        | false => exact .inr ⟨"", _, hdirectory, rfl⟩
        | true => exact .inr ⟨_, _, hdirectory, rfl⟩

variable (files) in
/-- Without `-P`, the directory is the one that was looked up. -/
theorem outcome_logical {rest : List String} {target : String} {isWritten : Bool}
    (hoptions : directoryOptions false args = (false, rest))
    (htarget : directoryTarget state rest = some (target, isWritten)) :
    if files.isDirectory (destination state target) then
      outcome files state args =
        (.success (if isWritten then destination state target ++ "\n" else ""),
          enterDirectory state (destination state target))
    else ∃ errors, outcome files state args = (.failure errors, state) := by
  unfold outcome FixedFiles.isDirectory
  rw [hoptions]
  dsimp only
  rw [htarget]
  dsimp only
  rcases files.describe (destination state target) with - | ⟨- | -, mode⟩
  · exact ⟨_, rfl⟩
  · exact ⟨_, rfl⟩
  · cases isWritten <;> rfl

/-! ## One call after the other -/

/-- What a call leaves that goes to another directory. -/
structure Entered (state after : State) : Prop where
  normal : Path.IsNormal after.directory
  former : after.previousDirectory = state.directory
  current : after.get? "PWD" = some after.directory
  old : after.get? "OLDPWD" = some state.directory
  others : ∀ name, name ≠ "PWD" → name ≠ "OLDPWD" → after.get? name = state.get? name

theorem entered_enterDirectory (state : State) {directory : String}
    (h : Path.IsNormal directory) : Entered state (enterDirectory state directory) where
  normal := h
  former := rfl
  current := by
    simp [enterDirectory, State.get?, State.set, Bindings.get?_insert_of_ne]
  old := by simp [enterDirectory, State.get?, State.set]
  others name hcurrent hold := by
    simp [enterDirectory, State.get?, State.set, Bindings.get?_insert_of_ne, hcurrent, hold]

/-- The directory and the one before it stay normal paths. -/
theorem Visits.normal {start : State} (h : Visits files start state)
    (hdirectory : Path.IsNormal start.directory)
    (hprevious : Path.IsNormal start.previousDirectory) :
    Path.IsNormal state.directory ∧ Path.IsNormal state.previousDirectory := by
  induction h with
  | start => exact ⟨hdirectory, hprevious⟩
  | @step state after args completion _ hcall ih =>
      have hresult := gives_runCd.mp hcall
      rcases outcome_cases files state args with ⟨_, hfailed⟩ | ⟨_, _, hnormal, hentered⟩
      · obtain ⟨-, rfl⟩ := Prod.mk.inj (hresult.trans hfailed)
        exact ih
      · obtain ⟨-, rfl⟩ := Prod.mk.inj (hresult.trans hentered)
        exact ⟨hnormal, ih.1⟩

/-- An argument that is the text of a path: no option, and no word for another directory. -/
def IsPlain (arg : String) : Prop := arg ∉ ["", "-", "~", "--", "-P", "-L"]

instance : DecidablePred IsPlain := fun arg =>
  inferInstanceAs (Decidable (arg ∉ ["", "-", "~", "--", "-P", "-L"]))

theorem directoryOptions_plain {arg : String} (h : IsPlain arg) :
    directoryOptions false [arg] = (false, [arg]) := by
  unfold directoryOptions
  split
  · rename_i harg
    cases harg
    exact absurd (by decide) h
  · rename_i harg
    cases harg
    exact absurd (by decide) h
  · rename_i harg
    cases harg
    exact absurd (by decide) h
  · rfl

variable (state) in
theorem directoryTarget_plain {arg : String} (h : IsPlain arg) :
    directoryTarget state [arg] = some (arg, false) := by
  unfold directoryTarget
  split
  · rename_i harg
    cases harg
  · rename_i harg
    cases harg
    exact absurd (by decide) h
  · rename_i harg
    cases harg
    exact absurd (by decide) h
  · rename_i harg
    cases harg
    rfl

/-- A path of two arguments has a slash in it and something before that. -/
theorem isPlain_append (first second : String) : IsPlain (first ++ "/" ++ second) := by
  have hwords : ∀ word ∈ ["", "-", "~", "--", "-P", "-L"], '/' ∉ word.toList := by decide
  exact fun hword => hwords _ hword (by simp)

theorem isAbsolute_append {first : String} (second : String) (hfirst : first ≠ "") :
    Path.isAbsolute (first ++ "/" ++ second) = Path.isAbsolute first := by
  have hsome : first.toList ≠ [] := by simpa using hfirst
  obtain ⟨c, letters, hletters⟩ := List.exists_cons_of_ne_nil hsome
  simp [Path.isAbsolute, hletters]

theorem destination_append {first second : String} {middle : State} (hfirst : first ≠ "")
    (hmiddle : middle.directory = destination state first)
    (hsecond : Path.isAbsolute second = false) :
    destination state (first ++ "/" ++ second) = destination middle second := by
  rw [destination, destination, hsecond, hmiddle, isAbsolute_append second hfirst, destination]
  simp only [Bool.false_eq_true, if_false]
  rw [Path.normalize_normalize_append]
  split
  · rfl
  · simp only [String.append_assoc]

variable (files state) in
/-- `cd -` goes where the shell was before, if it can. -/
theorem outcome_back (h : Path.IsNormal state.previousDirectory) :
    if files.isDirectory state.previousDirectory then
      outcome files state ["-"] = (.success (state.previousDirectory ++ "\n"),
        enterDirectory state state.previousDirectory)
    else ∃ errors, outcome files state ["-"] = (.failure errors, state) := by
  have hoptions : directoryOptions false ["-"] = (false, ["-"]) := rfl
  have hback : directoryTarget state ["-"] = some (state.previousDirectory, true) := rfl
  have hlogical := outcome_logical files hoptions hback
  rwa [destination_of_isNormal state h] at hlogical

/-- A call with a path succeeds if a directory is there. -/
theorem succeeds_plain {arg : String} (h : IsPlain arg) :
    (∃ completion : Completion, completion.status = 0 ∧
        files.Gives (runCd state [arg]) (completion, after)) ↔
      files.isDirectory (destination state arg) = true ∧
        after = enterDirectory state (destination state arg) := by
  simp only [gives_runCd]
  have hlogical := outcome_logical files (directoryOptions_plain h) (directoryTarget_plain state h)
  split at hlogical
  · rename_i hthere
    rw [hlogical]
    constructor
    · rintro ⟨_, _, hresult⟩
      exact ⟨hthere, (Prod.mk.inj hresult).2⟩
    · rintro ⟨_, rfl⟩
      exact ⟨_, rfl, rfl⟩
  · rename_i hmissing
    obtain ⟨errors, hfailed⟩ := hlogical
    rw [hfailed]
    constructor
    · rintro ⟨_, hok, hresult⟩
      obtain ⟨rfl, -⟩ := Prod.mk.inj hresult
      cases hok
    · exact fun h => absurd h.1 hmissing

/-- Whatever was called before, in a file system that does not change: a call comes to one result.
It fails and changes nothing, or it leaves the directory and the former one as they are in
`PWD` and `OLDPWD`, and `cd -` then goes back if the former one is a directory.  The
directory is a normal path.  And what two calls reach with a relative path is reached with
both paths in one. -/
theorem cd_consistent {start : State} (hdirectory : Path.IsNormal start.directory)
    (hprevious : Path.IsNormal start.previousDirectory) (h : Visits files start state) :
    Path.IsNormal state.directory ∧
    (∀ args, ∃ completion after, ∀ result,
      files.Gives (runCd state args) result ↔ result = (completion, after)) ∧
    (∀ args completion after, files.Gives (runCd state args) (completion, after) →
      (completion.status ≠ 0 ∧ after = state) ∨
      (completion.status = 0 ∧ Entered state after ∧
        ∀ back last, files.Gives (runCd after ["-"]) (back, last) →
          if files.isDirectory state.directory then
            back = .success (state.directory ++ "\n") ∧ last.directory = state.directory ∧
              Entered after last
          else back.status ≠ 0 ∧ last = after)) ∧
    ∀ a b, IsPlain a → IsPlain b → Path.isAbsolute b = false →
      ∀ first second middle after, files.Gives (runCd state [a]) (first, middle) →
        first.status = 0 → files.Gives (runCd middle [b]) (second, after) → second.status = 0 →
        ∃ completion last, files.Gives (runCd state [a ++ "/" ++ b]) (completion, last) ∧
          completion.status = 0 ∧ last.directory = after.directory := by
  obtain ⟨hnormal, -⟩ := h.normal hdirectory hprevious
  refine ⟨hnormal, fun args => ⟨_, _, fun _ => gives_runCd⟩,
    fun args completion after hcall => ?_, ?_⟩
  · have hresult := gives_runCd.mp hcall
    rcases outcome_cases files state args with ⟨_, hfailed⟩ | ⟨_, directory, hpath, hentered⟩
    · obtain ⟨rfl, rfl⟩ := Prod.mk.inj (hresult.trans hfailed)
      exact .inl ⟨by simp [Completion.failure], rfl⟩
    · obtain ⟨rfl, rfl⟩ := Prod.mk.inj (hresult.trans hentered)
      refine .inr ⟨rfl, entered_enterDirectory state hpath, fun back last hback => ?_⟩
      have hreturn := outcome_back files (enterDirectory state directory) hnormal
      change if files.isDirectory state.directory then _ else _ at hreturn
      split at hreturn
      · rename_i hthere
        obtain ⟨rfl, rfl⟩ := Prod.mk.inj ((gives_runCd.mp hback).trans hreturn)
        rw [if_pos hthere]
        exact ⟨rfl, rfl, entered_enterDirectory _ hnormal⟩
      · rename_i hgone
        obtain ⟨errors, hfailed⟩ := hreturn
        obtain ⟨rfl, rfl⟩ := Prod.mk.inj ((gives_runCd.mp hback).trans hfailed)
        rw [if_neg hgone]
        exact ⟨by simp [Completion.failure], rfl⟩
  · intro a b ha hb hrelative first second middle after hfirst hfirstok hsecond hsecondok
    obtain ⟨-, rfl⟩ := (succeeds_plain ha).mp ⟨first, hfirstok, hfirst⟩
    obtain ⟨hthere, rfl⟩ := (succeeds_plain hb).mp ⟨second, hsecondok, hsecond⟩
    have hsame : destination state (a ++ "/" ++ b) =
        destination (enterDirectory state (destination state a)) b :=
      destination_append (fun hempty => ha (by simp [hempty])) rfl hrelative
    rw [← hsame] at hthere
    obtain ⟨completion, hok, hcall⟩ := (succeeds_plain (isPlain_append a b)).mpr ⟨hthere, rfl⟩
    exact ⟨completion, _, hcall, hok, hsame⟩

/-- Directories, and a link to one of them at the root. -/
def smallTree : FixedFiles where
  describe path :=
    if path ∈ ["/", "/home", "/home/ann", "/home/ann/doc", "/link"] then some ⟨true, 0o755⟩
    else none
  canonical path := if path = "/link" then some "/home/ann" else none
  normal path target h := by
    split at h
    · obtain rfl := Option.some.inj h
      exact ⟨["home", "ann"], by decide, by decide⟩
    · cases h

theorem link_and_back : ∃ after last,
    smallTree.Gives (runCd (.initial "/" 1) ["-P", "link"]) (.ok, after) ∧
      after.directory = "/home/ann" ∧ after.get? "OLDPWD" = some "/" ∧
      smallTree.Gives (runCd after ["-"]) (.success "/\n", last) ∧ last.directory = "/" ∧
      ∃ completion final,
        smallTree.Gives (runCd after ["../ann/" ++ "/" ++ "doc"]) (completion, final) ∧
          completion.status = 0 ∧ final.directory = "/home/ann/doc" := by
  have hroot : Path.IsNormal "/" := ⟨[], by simp, rfl⟩
  have hstart : Visits smallTree (.initial "/" 1) (.initial "/" 1) := .start
  have hlink : smallTree.Gives (runCd (.initial "/" 1) ["-P", "link"])
      (.ok, enterDirectory (.initial "/" 1) "/home/ann") := gives_runCd.mpr rfl
  obtain ⟨_, _, hcalls, _⟩ := cd_consistent hroot hroot hstart
  obtain ⟨hfailed, _⟩ | ⟨_, hentered, hback⟩ := hcalls _ _ _ hlink
  · exact absurd rfl hfailed
  · have hvisits := hstart.step hlink
    obtain ⟨_, hresults, _, hpaths⟩ := cd_consistent hroot hroot hvisits
    obtain ⟨back, last, hresult⟩ := hresults ["-"]
    have hreturn := hback back last ((hresult _).mpr rfl)
    obtain ⟨rfl, hlast, _⟩ := hreturn
    obtain ⟨completion, final, hcall, hok, hfinal⟩ := hpaths "../ann/" "doc" (by decide)
      (by decide) (by decide) _ _ _ _ (gives_runCd.mpr rfl) (by decide +kernel)
      (gives_runCd.mpr rfl) (by decide +kernel)
    exact ⟨_, last, hlink, rfl, hentered.old, (hresult _).mpr rfl, hlast, completion, final, hcall,
      hok, hfinal.trans (by decide +kernel)⟩

/-- A shell that was started in a directory that is gone cannot go back there. -/
theorem started_nowhere : ∃ after,
    Path.IsNormal "/gone" ∧
    smallTree.Gives (runCd (.initial "/gone" 1) ["/home"]) (.ok, after) ∧
    after.directory = "/home" ∧ after.previousDirectory = "/gone" ∧
    smallTree.Gives (runCd after ["-"])
      (.failure "treesh: cd: /gone: No such file or directory\n", after) := by
  refine ⟨enterDirectory (.initial "/gone" 1) "/home", ⟨["gone"], by decide, by decide⟩,
    gives_runCd.mpr rfl, rfl, rfl, gives_runCd.mpr rfl⟩

end Builtin

end Conch
