import Conch.Proofs.Tree.Shape

/-!
# Exchanging the words of a tree

Exchanging the words of a tree exchanges the words of its layout and nothing else
(`Node.layout_mapWords`).  So words with the same texts leave the rendering as it is,
and the shape of a tree depends on its words only where a command starts with one.
-/

namespace Conch.Syntax

namespace Piece

/-- The piece with the fragments of its word exchanged. -/
def exchange (f : List Node → List Node) : Piece → Piece
  | word opensArm n => word opensArm (n.mapWords f)
  | piece => piece

@[simp] theorem exchange_blank (f : List Node → List Node) : exchange f blank = blank := rfl

@[simp] theorem exchange_mark (f : List Node → List Node) (token : Token) :
    exchange f (mark token) = mark token := rfl

@[simp] theorem exchange_number (f : List Node → List Node) (value : Nat) :
    exchange f (number value) = number value := rfl

@[simp] theorem exchange_name (f : List Node → List Node) (text : String) :
    exchange f (name text) = name text := rfl

@[simp] theorem exchange_word (f : List Node → List Node) (opensArm : Bool) (n : Node) :
    exchange f (word opensArm n) = word opensArm (n.mapWords f) := rfl

@[simp] theorem exchange_separator (f : List Node → List Node) :
    separator.map (exchange f) = separator := rfl

end Piece

open Piece

variable {f : List Node → List Node}

theorem Node.layoutMore_mapWords {between : List Piece}
    (hbetween : between.map (exchange f) = between) {nodes : List Node}
    (h : ∀ n ∈ nodes, (n.mapWords f).layout = n.layout.map (exchange f)) :
    Node.layoutMore between (nodes.map (Node.mapWords f)) =
      (Node.layoutMore between nodes).map (exchange f) := by
  induction nodes with
  | nil => rfl
  | cons n rest ih =>
      simp [Node.layoutMore, hbetween, h n (by simp), ih (fun m hm => h m (by simp [hm]))]

theorem Node.layouts_mapWords {between : List Piece}
    (hbetween : between.map (exchange f) = between) {nodes : List Node}
    (h : ∀ n ∈ nodes, (n.mapWords f).layout = n.layout.map (exchange f)) :
    Node.layouts between (nodes.map (Node.mapWords f)) =
      (Node.layouts between nodes).map (exchange f) := by
  cases nodes with
  | nil => rfl
  | cons n rest =>
      have hrest := Node.layoutMore_mapWords hbetween
        (fun m hm => h m (List.mem_cons_of_mem n hm))
      simp [Node.layouts, h n (by simp), hrest]

theorem Branch.layouts_mapWords {branches : List Branch}
    (h : ∀ t b, Branch.mk t b ∈ branches →
      (t.mapWords f).layout = t.layout.map (exchange f) ∧
        ∀ n ∈ b, (n.mapWords f).layout = n.layout.map (exchange f)) :
    Branch.layouts (Branch.mapAllWords f branches) =
      (Branch.layouts branches).map (exchange f) := by
  induction branches with
  | nil => rfl
  | cons branch rest ih =>
      obtain ⟨test, body⟩ := branch
      obtain ⟨htest, hbody⟩ := h test body (by simp)
      simp [Branch.mapAllWords, Branch.layouts, Branch.layout, htest,
        Node.layouts_mapWords (exchange_separator f) hbody, ih (fun t b hb => h t b (by simp [hb]))]

theorem Arm.layout_mapWords {patterns body : List Node}
    (hpatterns : ∀ n ∈ patterns, (n.mapWords f).layout = n.layout.map (exchange f))
    (hbody : ∀ n ∈ body, (n.mapWords f).layout = n.layout.map (exchange f)) :
    (Arm.mk (patterns.map (Node.mapWords f)) (body.map (Node.mapWords f))).layout =
      (Arm.mk patterns body).layout.map (exchange f) := by
  have hpipe : [blank, mark .pipe, blank].map (exchange f) = [blank, mark .pipe, blank] := rfl
  cases patterns with
  | nil => simp [Arm.layout, Node.layouts_mapWords (exchange_separator f) hbody]
  | cons first others =>
      have hothers := Node.layoutMore_mapWords hpipe
        (fun n hn => hpatterns n (List.mem_cons_of_mem first hn))
      simp [Arm.layout, Node.layouts_mapWords (exchange_separator f) hbody, hothers]

theorem Arm.layoutMore_mapWords {arms : List Arm}
    (h : ∀ ps b, Arm.mk ps b ∈ arms →
      (∀ n ∈ ps, (n.mapWords f).layout = n.layout.map (exchange f)) ∧
        ∀ n ∈ b, (n.mapWords f).layout = n.layout.map (exchange f)) :
    Arm.layoutMore (Arm.mapAllWords f arms) = (Arm.layoutMore arms).map (exchange f) := by
  induction arms with
  | nil => rfl
  | cons arm rest ih =>
      obtain ⟨patterns, body⟩ := arm
      obtain ⟨hpatterns, hbody⟩ := h patterns body (by simp)
      simp [Arm.mapAllWords, Arm.layoutMore, Arm.layout_mapWords hpatterns hbody,
        ih (fun ps b hb => h ps b (by simp [hb]))]

theorem Arm.layouts_mapWords {arms : List Arm}
    (h : ∀ ps b, Arm.mk ps b ∈ arms →
      (∀ n ∈ ps, (n.mapWords f).layout = n.layout.map (exchange f)) ∧
        ∀ n ∈ b, (n.mapWords f).layout = n.layout.map (exchange f)) :
    Arm.layouts (Arm.mapAllWords f arms) = (Arm.layouts arms).map (exchange f) := by
  cases arms with
  | nil => rfl
  | cons arm rest =>
      obtain ⟨patterns, body⟩ := arm
      obtain ⟨hpatterns, hbody⟩ := h patterns body (by simp)
      have hrest := Arm.layoutMore_mapWords (fun ps b hb => h ps b (List.mem_cons_of_mem _ hb))
      simp [Arm.mapAllWords, Arm.layouts, Arm.layout_mapWords hpatterns hbody, hrest]

theorem Node.layout_mapWords (f : List Node → List Node) (n : Node) :
    (n.mapWords f).layout = n.layout.map (exchange f) := by
  have hblank : [blank].map (exchange f) = [blank] := rfl
  induction n using Node.induction with
  | command args background ih =>
      cases background <;> simp [Node.mapWords, Node.layout, Node.layouts_mapWords hblank ih]
  | redirection descriptor op target ih =>
      cases descriptor <;> simp [Node.mapWords, Node.layout, ih]
  | subshell body ih =>
      simp [Node.mapWords, Node.layout, Node.layouts_mapWords (exchange_separator f) ih]
  | group body ih =>
      simp [Node.mapWords, Node.layout, Node.layouts_mapWords (exchange_separator f) ih]
  | conditional test body elifs otherwise htest hbody helifs hotherwise =>
      cases otherwise with
      | nil =>
          simp [Node.mapWords, Node.layout, htest, Node.layouts_mapWords (exchange_separator f) hbody,
            Branch.layouts_mapWords helifs]
      | cons statement rest =>
          have hrest := fun n hn => hotherwise n (List.mem_cons_of_mem statement hn)
          simp [Node.mapWords, Node.layout, htest, Node.layouts_mapWords (exchange_separator f) hbody,
            Branch.layouts_mapWords helifs, hotherwise statement,
            Node.layoutMore_mapWords (exchange_separator f) hrest]
  | whileLoop test body htest hbody =>
      simp [Node.mapWords, Node.layout, htest, Node.layouts_mapWords (exchange_separator f) hbody]
  | forLoop name words body hwords hbody =>
      simp [Node.mapWords, Node.layout, Node.layouts_mapWords hblank hwords,
        Node.layouts_mapWords (exchange_separator f) hbody]
  | binary op left right hleft hright => simp [Node.mapWords, Node.layout, hleft, hright]
  | function name body ih => simp [Node.mapWords, Node.layout, ih]
  | choice subject arms hsubject harms =>
      simp [Node.mapWords, Node.layout, hsubject, Arm.layouts_mapWords harms]
  | _ => rfl

theorem Program.layout_mapWords (f : List Node → List Node) (program : Program) :
    Program.layout (program.map (Node.mapWords f)) = (Program.layout program).map (exchange f) :=
  Node.layouts_mapWords (exchange_separator f) (fun n _ => n.layout_mapWords f)

/-- Words with the texts of the words before leave the rendering as it is. -/
theorem Program.render_mapWords {program : Program}
    (h : ∀ opensArm n, word opensArm n ∈ Program.layout program →
      (n.mapWords f).render = n.render) :
    Program.render (program.map (Node.mapWords f)) = Program.render program := by
  apply String.toList_inj.mp
  rw [Program.render_toList, Program.render_toList, Program.layout_mapWords, spell, spell,
    List.flatMap_map, List.flatMap_def, List.flatMap_def]
  refine congrArg List.flatten (List.map_congr_left (fun piece hpiece => ?_))
  cases piece with
  | word opensArm n => simp [Piece.text, h opensArm n hpiece]
  | _ => rfl

end Conch.Syntax
