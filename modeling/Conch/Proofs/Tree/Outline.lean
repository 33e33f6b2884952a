import Conch.Proofs.Tree.Exchange

/-!
# Outlines

The outline of a tree is what is left of it when the fragments of its words are
exchanged.  An outline still fits where the tree did, and the outline and the words, in
reading order, are the whole tree (`Node.eq_of_outlines`).
-/

namespace Conch.Syntax

/-! ## Words in reading order -/

namespace Piece

def wordsIn (pieces : List Piece) : List Node := pieces.filterMap word?

@[simp] theorem wordsIn_nil : wordsIn [] = [] := rfl

@[simp] theorem wordsIn_blank (pieces : List Piece) : wordsIn (blank :: pieces) = wordsIn pieces :=
  rfl

@[simp] theorem wordsIn_mark (token : Token) (pieces : List Piece) :
    wordsIn (mark token :: pieces) = wordsIn pieces := rfl

@[simp] theorem wordsIn_number (value : Nat) (pieces : List Piece) :
    wordsIn (number value :: pieces) = wordsIn pieces := rfl

@[simp] theorem wordsIn_name (text : String) (pieces : List Piece) :
    wordsIn (name text :: pieces) = wordsIn pieces := rfl

@[simp] theorem wordsIn_word (opensArm : Bool) (n : Node) (pieces : List Piece) :
    wordsIn (word opensArm n :: pieces) = n :: wordsIn pieces := rfl

@[simp] theorem wordsIn_append (first second : List Piece) :
    wordsIn (first ++ second) = wordsIn first ++ wordsIn second := by
  simp [wordsIn]

@[simp] theorem wordsIn_separator : wordsIn separator = [] := rfl

theorem wordsIn_layoutMore {between : List Piece} (hbetween : wordsIn between = [])
    (nodes : List Node) :
    wordsIn (Node.layoutMore between nodes) = nodes.flatMap (fun n => wordsIn n.layout) := by
  induction nodes with
  | nil => rfl
  | cons n rest ih => simp [Node.layoutMore, hbetween, ih]

theorem wordsIn_layouts {between : List Piece} (hbetween : wordsIn between = [])
    (nodes : List Node) :
    wordsIn (Node.layouts between nodes) = nodes.flatMap (fun n => wordsIn n.layout) := by
  cases nodes with
  | nil => rfl
  | cons n rest => simp [Node.layouts, wordsIn_layoutMore hbetween]

@[simp] theorem wordsIn_list (nodes : List Node) :
    wordsIn (Node.layouts separator nodes) = nodes.flatMap (fun n => wordsIn n.layout) :=
  wordsIn_layouts wordsIn_separator nodes

@[simp] theorem wordsIn_blanked (nodes : List Node) :
    wordsIn (Node.layouts [blank] nodes) = nodes.flatMap (fun n => wordsIn n.layout) :=
  wordsIn_layouts rfl nodes

@[simp] theorem wordsIn_arms (arms : List Arm) :
    wordsIn (Arm.layouts arms) = arms.flatMap (fun arm => wordsIn arm.layout) := by
  have hmore : ∀ arms : List Arm,
      wordsIn (Arm.layoutMore arms) = arms.flatMap (fun arm => wordsIn arm.layout) := by
    intro arms
    induction arms with
    | nil => rfl
    | cons arm rest ih => simp [Arm.layoutMore, ih]
  cases arms with
  | nil => rfl
  | cons arm rest => simp [Arm.layouts, hmore]

@[simp] theorem wordsIn_branches (branches : List Branch) :
    wordsIn (Branch.layouts branches) = branches.flatMap (fun branch => wordsIn branch.layout) := by
  induction branches with
  | nil => rfl
  | cons branch rest ih => simp [Branch.layouts, ih]

theorem wordsIn_command (args : List Node) (background : Bool) :
    wordsIn (Node.command args background).layout = args.flatMap (fun n => wordsIn n.layout) := by
  cases background <;> simp [Node.layout]

theorem wordsIn_redirection (descriptor : Option Nat) (op : Token) (target : Node) :
    wordsIn (Node.redirection descriptor op target).layout = wordsIn target.layout := by
  cases descriptor <;> simp [Node.layout]

theorem wordsIn_branch (test : Node) (body : List Node) :
    wordsIn (Branch.mk test body).layout =
      wordsIn test.layout ++ body.flatMap (fun n => wordsIn n.layout) := by
  simp [Branch.layout]

theorem wordsIn_conditional (test : Node) (body : List Node) (elifs : List Branch)
    (otherwise : List Node) :
    wordsIn (Node.conditional test body elifs otherwise).layout =
      wordsIn test.layout ++ body.flatMap (fun n => wordsIn n.layout) ++
        elifs.flatMap (fun branch => wordsIn branch.layout) ++
        otherwise.flatMap (fun n => wordsIn n.layout) := by
  cases otherwise with
  | nil => simp [Node.layout]
  | cons statement rest => simp [Node.layout, wordsIn_layoutMore wordsIn_separator]

/-- The words of the patterns of an arm. -/
def patternWords : List Node → List Node
  | [] => []
  | first :: others => first :: others.flatMap (fun n => wordsIn n.layout)

theorem wordsIn_arm (patterns body : List Node) :
    wordsIn (Arm.mk patterns body).layout =
      patternWords patterns ++ body.flatMap (fun n => wordsIn n.layout) := by
  have hpipe : wordsIn [blank, mark .pipe, blank] = [] := rfl
  cases patterns with
  | nil => simp [Arm.layout, patternWords]
  | cons first others => simp [Arm.layout, patternWords, wordsIn_layoutMore hpipe]

end Piece

open Piece

/-! ## Trees from their outlines -/

section Recovery

variable {f : List Node → List Node}

/-- The tree is told by its outline and the words that come first. -/
def Node.Recovered (f : List Node → List Node) (n : Node) : Prop :=
  ∀ m first second, n.mapWords f = m.mapWords f →
    wordsIn n.layout ++ first = wordsIn m.layout ++ second → n = m ∧ first = second

theorem Node.recovered_list {nodes others : List Node} (h : ∀ n ∈ nodes, n.Recovered f)
    (houtline : nodes.map (Node.mapWords f) = others.map (Node.mapWords f))
    {first second : List Node}
    (hwords : nodes.flatMap (fun n => wordsIn n.layout) ++ first =
      others.flatMap (fun n => wordsIn n.layout) ++ second) : nodes = others ∧ first = second := by
  induction nodes generalizing others with
  | nil =>
      cases others with
      | nil => exact ⟨rfl, hwords⟩
      | cons m others => cases houtline
  | cons n nodes ih =>
      cases others with
      | nil => cases houtline
      | cons m others =>
          obtain ⟨hhead, htail⟩ := List.cons.inj houtline
          simp only [List.flatMap_cons, List.append_assoc] at hwords
          obtain ⟨rfl, hrest⟩ := h n (by simp) m _ _ hhead hwords
          obtain ⟨rfl, hmore⟩ := ih (fun k hk => h k (by simp [hk])) htail hrest
          exact ⟨rfl, hmore⟩

theorem Node.recovered_branches {branches others : List Branch}
    (h : ∀ t b, Branch.mk t b ∈ branches → t.Recovered f ∧ ∀ n ∈ b, n.Recovered f)
    (houtline : Branch.mapAllWords f branches = Branch.mapAllWords f others)
    {first second : List Node}
    (hwords : branches.flatMap (fun branch => wordsIn branch.layout) ++ first =
      others.flatMap (fun branch => wordsIn branch.layout) ++ second) :
    branches = others ∧ first = second := by
  induction branches generalizing others with
  | nil =>
      rcases others with _ | ⟨⟨test, body⟩, others⟩
      · exact ⟨rfl, hwords⟩
      · cases houtline
  | cons branch branches ih =>
      obtain ⟨test, body⟩ := branch
      rcases others with _ | ⟨⟨test', body'⟩, others⟩
      · cases houtline
      · obtain ⟨htest, hbody⟩ := h test body (by simp)
        simp only [Branch.mapAllWords, List.cons.injEq, Branch.mk.injEq, mapAllWords_eq] at houtline
        obtain ⟨⟨htests, hbodies⟩, hothers⟩ := houtline
        simp only [List.flatMap_cons, wordsIn_branch, List.append_assoc] at hwords
        obtain ⟨rfl, hafter⟩ := htest _ _ _ htests hwords
        obtain ⟨rfl, hmore⟩ := recovered_list hbody hbodies hafter
        obtain ⟨rfl, hend⟩ := ih (fun t b hb => h t b (by simp [hb])) hothers hmore
        exact ⟨rfl, hend⟩

theorem Node.recovered_patterns {patterns others : List Node} (h : ∀ n ∈ patterns, n.Recovered f)
    (houtline : patterns.map (Node.mapWords f) = others.map (Node.mapWords f))
    {first second : List Node}
    (hwords : patternWords patterns ++ first = patternWords others ++ second) :
    patterns = others ∧ first = second := by
  cases patterns with
  | nil =>
      cases others with
      | nil => exact ⟨rfl, hwords⟩
      | cons m others => cases houtline
  | cons n patterns =>
      cases others with
      | nil => cases houtline
      | cons m others =>
          obtain ⟨_, htail⟩ := List.cons.inj houtline
          obtain ⟨rfl, hrest⟩ := List.cons.inj hwords
          obtain ⟨rfl, hmore⟩ := recovered_list (fun k hk => h k (by simp [hk])) htail hrest
          exact ⟨rfl, hmore⟩

theorem Node.recovered_arms {arms others : List Arm}
    (h : ∀ ps b, Arm.mk ps b ∈ arms → (∀ n ∈ ps, n.Recovered f) ∧ ∀ n ∈ b, n.Recovered f)
    (houtline : Arm.mapAllWords f arms = Arm.mapAllWords f others) {first second : List Node}
    (hwords : arms.flatMap (fun arm => wordsIn arm.layout) ++ first =
      others.flatMap (fun arm => wordsIn arm.layout) ++ second) :
    arms = others ∧ first = second := by
  induction arms generalizing others with
  | nil =>
      rcases others with _ | ⟨⟨patterns, body⟩, others⟩
      · exact ⟨rfl, hwords⟩
      · cases houtline
  | cons arm arms ih =>
      obtain ⟨patterns, body⟩ := arm
      rcases others with _ | ⟨⟨patterns', body'⟩, others⟩
      · cases houtline
      · obtain ⟨hpatterns, hbody⟩ := h patterns body (by simp)
        simp only [Arm.mapAllWords, List.cons.injEq, Arm.mk.injEq, mapAllWords_eq] at houtline
        obtain ⟨⟨hall, hbodies⟩, hothers⟩ := houtline
        simp only [List.flatMap_cons, wordsIn_arm, List.append_assoc] at hwords
        obtain ⟨rfl, hafter⟩ := recovered_patterns hpatterns hall hwords
        obtain ⟨rfl, hmore⟩ := recovered_list hbody hbodies hafter
        obtain ⟨rfl, hend⟩ := ih (fun ps b hb => h ps b (by simp [hb])) hothers hmore
        exact ⟨rfl, hend⟩

/-- The outline of a tree and its words in reading order are the whole tree. -/
theorem Node.recovered (n : Node) : n.Recovered f := by
  intro m first second houtline hwords
  induction n using Node.induction generalizing m first second with
  | command args background ih =>
      cases m with
      | command args' background' =>
          simp only [mapWords, mapAllWords_eq, Node.command.injEq] at houtline
          obtain ⟨hargs, rfl⟩ := houtline
          simp only [wordsIn_command] at hwords
          obtain ⟨rfl, hrest⟩ := recovered_list ih hargs hwords
          exact ⟨rfl, hrest⟩
      | _ => simp [mapWords] at houtline
  | redirection descriptor op target ih =>
      cases m with
      | redirection descriptor' op' target' =>
          simp only [mapWords, Node.redirection.injEq] at houtline
          obtain ⟨rfl, rfl, htarget⟩ := houtline
          simp only [wordsIn_redirection] at hwords
          obtain ⟨rfl, hrest⟩ := ih _ _ _ htarget hwords
          exact ⟨rfl, hrest⟩
      | _ => simp [mapWords] at houtline
  | subshell body ih =>
      cases m with
      | subshell body' =>
          simp only [mapWords, mapAllWords_eq, Node.subshell.injEq] at houtline
          obtain ⟨rfl, hrest⟩ := recovered_list ih houtline (by simpa [layout] using hwords)
          exact ⟨rfl, hrest⟩
      | _ => simp [mapWords] at houtline
  | group body ih =>
      cases m with
      | group body' =>
          simp only [mapWords, mapAllWords_eq, Node.group.injEq] at houtline
          obtain ⟨rfl, hrest⟩ := recovered_list ih houtline (by simpa [layout] using hwords)
          exact ⟨rfl, hrest⟩
      | _ => simp [mapWords] at houtline
  | conditional test body elifs otherwise ihtest ihbody ihelifs ihotherwise =>
      cases m with
      | conditional test' body' elifs' otherwise' =>
          simp only [mapWords, mapAllWords_eq, Node.conditional.injEq] at houtline
          obtain ⟨htests, hbodies, helifs, hotherwises⟩ := houtline
          simp only [wordsIn_conditional, List.append_assoc] at hwords
          obtain ⟨rfl, hthen⟩ := ihtest _ _ _ htests hwords
          obtain ⟨rfl, hmore⟩ := recovered_list ihbody hbodies hthen
          obtain ⟨rfl, helse⟩ := recovered_branches ihelifs helifs hmore
          obtain ⟨rfl, hrest⟩ := recovered_list ihotherwise hotherwises helse
          exact ⟨rfl, hrest⟩
      | _ => simp [mapWords] at houtline
  | whileLoop test body ihtest ih =>
      cases m with
      | whileLoop test' body' =>
          simp only [mapWords, mapAllWords_eq, Node.whileLoop.injEq] at houtline
          obtain ⟨htests, hbodies⟩ := houtline
          obtain ⟨rfl, hmore⟩ := ihtest _ _ _ htests (by simpa [layout] using hwords)
          obtain ⟨rfl, hrest⟩ := recovered_list ih hbodies hmore
          exact ⟨rfl, hrest⟩
      | _ => simp [mapWords] at houtline
  | forLoop name words body ihwords ih =>
      cases m with
      | forLoop name' words' body' =>
          simp only [mapWords, mapAllWords_eq, Node.forLoop.injEq] at houtline
          obtain ⟨rfl, hvalues, hbodies⟩ := houtline
          obtain ⟨rfl, hmore⟩ := recovered_list ihwords hvalues (by simpa [layout] using hwords)
          obtain ⟨rfl, hrest⟩ := recovered_list ih hbodies hmore
          exact ⟨rfl, hrest⟩
      | _ => simp [mapWords] at houtline
  | binary op left right ihleft ihright =>
      cases m with
      | binary op' left' right' =>
          simp only [mapWords, Node.binary.injEq] at houtline
          obtain ⟨rfl, hlefts, hrights⟩ := houtline
          obtain ⟨rfl, hmore⟩ := ihleft _ _ _ hlefts (by simpa [layout] using hwords)
          obtain ⟨rfl, hrest⟩ := ihright _ _ _ hrights hmore
          exact ⟨rfl, hrest⟩
      | _ => simp [mapWords] at houtline
  | function name body ih =>
      cases m with
      | function name' body' =>
          simp only [mapWords, Node.function.injEq] at houtline
          obtain ⟨rfl, hbodies⟩ := houtline
          obtain ⟨rfl, hrest⟩ := ih _ _ _ hbodies (by simpa [layout] using hwords)
          exact ⟨rfl, hrest⟩
      | _ => simp [mapWords] at houtline
  | choice subject arms ihsubject ih =>
      cases m with
      | choice subject' arms' =>
          simp only [mapWords, Node.choice.injEq] at houtline
          obtain ⟨hsubjects, harms⟩ := houtline
          obtain ⟨rfl, hmore⟩ := ihsubject _ _ _ hsubjects (by simpa [layout] using hwords)
          obtain ⟨rfl, hrest⟩ := recovered_arms ih harms hmore
          exact ⟨rfl, hrest⟩
      | _ => simp [mapWords] at houtline
  | word parts =>
      cases m with
      | word parts' => exact List.cons.inj hwords
      | _ => simp [mapWords] at houtline
  | _ =>
      cases m with
      | command | redirection | subshell | group | conditional | whileLoop | forLoop | binary
      | function | choice | word => simp [mapWords] at houtline
      | _ => exact List.cons.inj hwords

/-! ## The shape of an outline -/

theorem Node.IsWord.mapWords {n : Node} (h : n.IsWord) : (n.mapWords f).IsWord := by
  cases n with
  | word parts => trivial
  | _ => cases h

theorem Node.IsArgument.mapWords {n : Node} (h : n.IsArgument) : (n.mapWords f).IsArgument := by
  cases n with
  | word parts => trivial
  | redirection descriptor op target => exact ⟨h.1, h.2.1, h.2.2.mapWords⟩
  | _ => cases h

theorem Node.Arguments.mapWords
    (hf : ∀ parts, mayStart (Node.render (.word parts)) = true →
      mayStart (Node.render (.word (f parts))) = true)
    {args : List Node} (h : Node.Arguments args) : Node.Arguments (args.map (Node.mapWords f)) := by
  obtain ⟨hne, hall, hfirst⟩ := h
  refine ⟨by simpa using hne, ?_, ?_⟩
  · intro n hn
    obtain ⟨arg, harg, rfl⟩ := List.mem_map.mp hn
    exact (hall arg harg).mapWords
  · intro parts hparts
    rw [List.head?_map, Option.map_eq_some_iff] at hparts
    obtain ⟨arg, harg, hword⟩ := hparts
    cases arg with
    | word before =>
        cases hword
        exact hf before (hfirst before harg)
    | _ => cases hword

theorem Node.allFit_mapWords {nodes : List Node}
    (h : ∀ n ∈ nodes, ∀ rank, n.Fits rank → (n.mapWords f).Fits rank) (hfits : Node.AllFit nodes) :
    Node.AllFit (nodes.map (Node.mapWords f)) := by
  refine Node.allFit_iff.mpr (fun n hn => ?_)
  obtain ⟨m, hm, rfl⟩ := List.mem_map.mp hn
  exact h m hm .statement (Node.allFit_iff.mp hfits m hm)

theorem Branch.allFit_mapWords {branches : List Branch}
    (h : ∀ t b, Branch.mk t b ∈ branches → (∀ rank, t.Fits rank → (t.mapWords f).Fits rank) ∧
      ∀ n ∈ b, ∀ rank, n.Fits rank → (n.mapWords f).Fits rank)
    (hfits : Branch.AllFit branches) : Branch.AllFit (Branch.mapAllWords f branches) := by
  induction branches with
  | nil => trivial
  | cons branch rest ih =>
      obtain ⟨test, body⟩ := branch
      obtain ⟨⟨htest, hne, hbody⟩, hrest⟩ := hfits
      obtain ⟨ihtest, ihbody⟩ := h test body (by simp)
      refine ⟨⟨ihtest .statement htest, by simpa using hne, ?_⟩,
        ih (fun t b hb => h t b (by simp [hb])) hrest⟩
      rw [Node.mapAllWords_eq]
      exact Node.allFit_mapWords ihbody hbody

theorem Arm.allFit_mapWords {arms : List Arm}
    (h : ∀ ps b, Arm.mk ps b ∈ arms → ∀ n ∈ b, ∀ rank, n.Fits rank → (n.mapWords f).Fits rank)
    (hfits : Arm.AllFit arms) : Arm.AllFit (Arm.mapAllWords f arms) := by
  induction arms with
  | nil => trivial
  | cons arm rest ih =>
      obtain ⟨patterns, body⟩ := arm
      obtain ⟨⟨hne, hpatterns, hbody⟩, hrest⟩ := hfits
      rw [Arm.mapAllWords, Node.mapAllWords_eq, Node.mapAllWords_eq]
      refine ⟨⟨by simpa using hne, ?_, Node.allFit_mapWords (h patterns body (by simp)) hbody⟩,
        ih (fun ps b hb => h ps b (by simp [hb])) hrest⟩
      intro n hn
      obtain ⟨pattern, hpattern, rfl⟩ := List.mem_map.mp hn
      exact (hpatterns pattern hpattern).mapWords

/-- An outline fits where its tree does if its words may start commands where those of the tree
may. -/
theorem Node.Fits.mapWords
    (hf : ∀ parts, mayStart (Node.render (.word parts)) = true →
      mayStart (Node.render (.word (f parts))) = true)
    {n : Node} {rank : Rank} (h : n.Fits rank) : (n.mapWords f).Fits rank := by
  induction n using Node.induction generalizing rank with
  | command args background _ =>
      simp only [Node.mapWords, mapAllWords_eq]
      exact ⟨h.1, h.2.mapWords hf⟩
  | subshell body ih =>
      simp only [Node.mapWords, mapAllWords_eq]
      exact ⟨by simpa using h.1, allFit_mapWords (fun n hn rank => ih n hn) h.2⟩
  | group body ih =>
      simp only [Node.mapWords, mapAllWords_eq]
      exact ⟨by simpa using h.1, allFit_mapWords (fun n hn rank => ih n hn) h.2⟩
  | conditional test body elifs otherwise ihtest ihbody ihelifs ihotherwise =>
      obtain ⟨htest, ⟨hne, hbody⟩, helifs, hotherwise⟩ := h
      simp only [Node.mapWords, mapAllWords_eq]
      exact ⟨ihtest htest, ⟨by simpa using hne, allFit_mapWords (fun n hn rank => ihbody n hn) hbody⟩,
        Branch.allFit_mapWords (fun t b hb => ⟨fun rank => (ihelifs t b hb).1,
          fun n hn rank => (ihelifs t b hb).2 n hn⟩) helifs,
        allFit_mapWords (fun n hn rank => ihotherwise n hn) hotherwise⟩
  | whileLoop test body ihtest ih =>
      obtain ⟨htest, hne, hbody⟩ := h
      simp only [Node.mapWords, mapAllWords_eq]
      exact ⟨ihtest htest, by simpa using hne, allFit_mapWords (fun n hn rank => ih n hn) hbody⟩
  | forLoop name words body _ ih =>
      obtain ⟨hname, hwords, hne, hbody⟩ := h
      simp only [Node.mapWords, mapAllWords_eq]
      refine ⟨hname, ?_, by simpa using hne, allFit_mapWords (fun n hn rank => ih n hn) hbody⟩
      intro n hn
      obtain ⟨value, hvalue, rfl⟩ := List.mem_map.mp hn
      exact (hwords value hvalue).mapWords
  | binary op left right ihleft ihright =>
      cases op with
      | pipe => exact ⟨h.1, ihleft h.2.1, ihright h.2.2⟩
      | andAnd | orOr => exact ⟨h.1, h.2.1, ihleft h.2.2.1, ihright h.2.2.2⟩
      | _ => simp [Node.Fits] at h
  | function name body ih => exact ⟨h.1, h.2.1, ih h.2.2⟩
  | choice subject arms _ ih =>
      exact ⟨h.1.mapWords, Arm.allFit_mapWords (fun ps b hb n hn rank => (ih ps b hb).2 n hn) h.2⟩
  | _ => exact h.elim

end Recovery

end Conch.Syntax
