import Conch.Syntax.Node

/-!
# Rendering

Every tree has one canonical text.  Statements are separated by a semicolon and a
blank, words by a blank, the arms of a choice by a doubled semicolon, and the
fragments of a word by nothing.  Lists are written from the left onto the text
that stands before them, so a long list costs no more than its text.
-/

namespace Conch.Syntax

mutual

def Node.render : Node → String
  | .command args background =>
      Node.renderList " " args ++ (if background then " &" else "")
  | .redirection descriptor op target =>
      (match descriptor with
        | some n => toString n
        | none => "") ++ op.text ++ target.render
  | .subshell body => "(" ++ Node.renderList "; " body ++ ")"
  | .group body => "\x7b " ++ Node.renderList "; " body ++ "; \x7d"
  | .conditional test body elifs otherwise =>
      Branch.renderMore ("if " ++ test.render ++ "; then " ++ Node.renderList "; " body) elifs ++
        (match otherwise with
          | [] => ""
          | statement :: rest => Node.renderMore "; " ("; else " ++ statement.render) rest) ++
        "; fi"
  | .whileLoop test body =>
      "while " ++ test.render ++ "; do " ++ Node.renderList "; " body ++ "; done"
  | .forLoop name words body =>
      "for " ++ name ++ " in " ++ Node.renderList " " words ++ "; do " ++
        Node.renderList "; " body ++ "; done"
  | .binary op left right => left.render ++ " " ++ op.text ++ " " ++ right.render
  | .function name body => name ++ "() " ++ body.render
  | .choice subject arms =>
      "case " ++ subject.render ++ " in " ++ Arm.renderList arms ++ "; esac"
  | .word parts => Node.renderList "" parts
  | .literal text => text
  | .quoted parts => "\"" ++ Node.renderList "" parts ++ "\""
  | .substitution body => "$(" ++ Node.renderList "; " body ++ ")"
  | .parameter true text => "$" ++ text
  | .parameter false text => "$\x7b" ++ text ++ "\x7d"
  | .arithmetic text => "$((" ++ text ++ "))"

/-- The renderings of a list of nodes with the separator between neighbours. -/
def Node.renderList (separator : String) : List Node → String
  | [] => ""
  | node :: rest => Node.renderMore separator node.render rest

/-- Continues a text with more nodes, the separator before each. -/
def Node.renderMore (separator : String) : String → List Node → String
  | written, [] => written
  | written, node :: rest => Node.renderMore separator (written ++ separator ++ node.render) rest

def Branch.render : Branch → String
  | .mk test body => "elif " ++ test.render ++ "; then " ++ Node.renderList "; " body

def Branch.renderMore : String → List Branch → String
  | written, [] => written
  | written, branch :: rest => Branch.renderMore (written ++ "; " ++ branch.render) rest

def Arm.render : Arm → String
  | .mk patterns body => Node.renderList " | " patterns ++ ") " ++ Node.renderList "; " body

def Arm.renderList : List Arm → String
  | [] => ""
  | arm :: rest => Arm.renderMore arm.render rest

def Arm.renderMore : String → List Arm → String
  | written, [] => written
  | written, arm :: rest => Arm.renderMore (written ++ ";; " ++ arm.render) rest

end

def Program.render (program : Program) : String := Node.renderList "; " program

end Conch.Syntax
