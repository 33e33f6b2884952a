import Conch.Files.Glob
import Conch.Proofs.Effect.Mirrors

/-!
# Searches only ask

The search for the paths of a pattern asks the file system, and nothing else: so it comes
to an end, whatever the answers are.
-/

namespace Conch.Glob

open Proc

theorem isDirectory_asks (path : String) : (isDirectory path).Asks :=
  .ask fun _ => .done _

section

variable {wantsDirectory : Bool} {below : Search}
  (hbelow : ∀ patterns path, (below patterns path).Asks)

include hbelow

theorem reached_asks (rest : List Pattern) (path : String) :
    (reached wantsDirectory below rest path).Asks := by
  unfold reached
  split
  · refine (isDirectory_asks path).andThen fun found => ?_
    split
    · exact .done _
    · exact .done _
  · exact hbelow rest path

theorem matching_asks (patterns : List Pattern) (name path : String) :
    (matching wantsDirectory below patterns name path).Asks := by
  unfold matching
  split
  · exact .done _
  split
  · exact reached_asks hbelow _ path
  · exact .done _

theorem visit_asks (patterns : List Pattern) (name path : String) :
    (visit wantsDirectory below patterns name path).Asks := by
  have hmatching : ∀ patterns, (matching wantsDirectory below patterns name path).Asks :=
    fun patterns => matching_asks hbelow patterns name path
  unfold visit
  split
  · exact .done _
  split
  · rename_i pattern rest _
    have hhere : (if (rest.dropWhile isPath).isEmpty = true then (return [] : Proc (List String))
        else matching wantsDirectory below (rest.dropWhile isPath) name path).Asks := by
      split
      · exact .done _
      · exact hmatching _
    refine (isDirectory_asks path).andThen fun found => ?_
    split
    · refine (hbelow _ path).andThen fun inside => ?_
      split
      · exact .done _
      · exact (hmatching _).andThen fun _ => .done _
    · exact hhere
  · exact hmatching _

theorem search_asks (patterns : List Pattern) (directory : String) :
    (search wantsDirectory below patterns directory).Asks := by
  unfold search
  split
  · exact .done _
  split
  · have hfound : ∀ (rest : List Pattern) (path : String) (found : Bool),
        (if found = true then reached wantsDirectory below rest path
          else (return [] : Proc (List String))).Asks := by
      intro rest path found
      split
      · exact reached_asks hbelow rest path
      · exact .done _
    dsimp only
    split
    · exact (isDirectory_asks directory).andThen (hfound _ _)
    · refine (Asks.request _).andThen fun known => ?_
      split
      · exact hfound _ _ true
      · exact (Asks.request _).andThen (hfound _ _)
  · refine (isDirectory_asks directory).andThen fun found => ?_
    split
    · exact .done _
    refine (Asks.request _).andThen fun names => ?_
    split
    · exact .done _
    refine (Asks.flatMapM _ fun name => visit_asks hbelow _ _ _).andThen fun entries => ?_
    split
    · exact .done _
    · exact (Asks.flatMapM _ fun name => reached_asks hbelow _ _).andThen
        fun dots => .done _

end

theorem searchTo_asks (wantsDirectory : Bool) (depth : Nat) (patterns : List Pattern)
    (path : String) : (searchTo wantsDirectory depth patterns path).Asks := by
  induction depth generalizing patterns path with
  | zero => exact .done _
  | succ depth ih => exact search_asks ih patterns path

theorem paths_asks (pattern : String) : (paths pattern).Asks := by
  unfold paths
  dsimp only
  split
  · exact searchTo_asks _ _ _ _
  · exact .done _

theorem expand_asks (pattern directory : String) : (expand pattern directory).Asks := by
  unfold expand
  split
  · exact (paths_asks pattern).andThen fun _ => .done _
  · unfold expand.below
    exact ((paths_asks _).andThen fun _ => .done _).andThen fun _ => .done _

end Conch.Glob
