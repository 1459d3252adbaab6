import Reachability.FlowGraph.Basic
import Reachability.FlowGraph.Check

/-!
# Control-flow graphs of programs

A conditional becomes two assume edges and a join, a loop has a header with one
assume edge into the body and one out of the loop, and every return leads to one
exit node.
-/

namespace Reachability

/-- The nodes and edges created so far, and the node that returns lead to, once there is one. -/
structure Draft extends Network where
  exit : Option Nat := none
deriving Repr

structure JumpTargets where
  header : Nat
  exit : Nat
deriving Repr

namespace Draft

def addNode (draft : Draft) : Nat × Draft :=
  (draft.nodes.length, { toNetwork := draft.toNetwork.addNode, exit := draft.exit })

def addEdge (draft : Draft) (source target : Nat) (action : Action) (pos : Nat := 0) : Draft :=
  { toNetwork := draft.toNetwork.addEdge source target action pos, exit := draft.exit }

def extend (draft : Draft) (source : Nat) (action : Action) (pos : Nat) : Nat × Draft :=
  let (target, draft) := draft.addNode
  (target, draft.addEdge source target action pos)

def label (draft : Draft) (node : Nat) (label : String) : Draft :=
  { toNetwork := draft.toNetwork.label node label, exit := draft.exit }

def addBlankFrom (draft : Draft) (source : Option Nat) (target : Nat) (description : String) :
    Draft :=
  match source with
  | some source => draft.addEdge source target (.blank description)
  | none => draft

/-- The ends of two branches meet at a new node, unless control arrives at neither of them. -/
def join (draft : Draft) (first second : Option Nat) : Option Nat × Draft :=
  if first.isNone && second.isNone then (none, draft)
  else
    let (join, draft) := draft.addNode
    (some join, (draft.addBlankFrom first join "endif").addBlankFrom second join "endif")

def addReturn (draft : Draft) (source pos : Nat) : Draft :=
  match draft.exit with
  | some exit => draft.addEdge source exit (.blank "return") pos
  | none =>
    let (exit, draft) := draft.addNode
    { draft with exit := some exit }.addEdge source exit (.blank "return") pos

end Draft

namespace Stmt

mutual

/-- Lower a statement.  The result is the node where control is after it, if it falls through. -/
def lower (targets : Option JumpTargets) (stmt : Stmt) (current : Nat) (draft : Draft) :
    Option Nat × Draft :=
  let draft := draft.label current stmt.span.label
  match stmt with
  | block _ body => lowerAll targets body current draft
  | assign span var value =>
    let (next, draft) := draft.extend current (.assign var value) span.pos
    (some next, draft)
  | call span result callee args =>
    let (next, draft) := draft.extend current (.call result callee args) span.pos
    (some next, draft)
  | assume span cond =>
    let (next, draft) := draft.extend current (.assume cond true) span.pos
    (some next, draft)
  | skip span =>
    let (next, draft) := draft.extend current (.blank "skip") span.pos
    (some next, draft)
  | branch span cond yes no =>
    let (yesStart, draft) := draft.extend current (.assume cond true) span.pos
    let (noStart, draft) := draft.extend current (.assume cond false) span.pos
    let (yesEnd, draft) := lower targets yes yesStart draft
    if no.isMissing then (some noStart, draft.addBlankFrom yesEnd noStart "endif")
    else
      let (noEnd, draft) := lower targets no noStart draft
      draft.join yesEnd noEnd
  | loop span cond body =>
    let (header, draft) := draft.extend current (.blank "while") span.pos
    let (bodyStart, draft) := draft.extend header (.assume cond true) span.pos
    let (exit, draft) := draft.extend header (.assume cond false) span.pos
    let (bodyEnd, draft) := lower (some { header, exit }) body bodyStart draft
    (some exit, draft.addBlankFrom bodyEnd header "loop")
  | ret span => (none, draft.addReturn current span.pos)
  | brk span =>
    match targets with
    | some targets => (none, draft.addEdge current targets.exit (.blank "break") span.pos)
    | none => (none, draft)
  | cont span =>
    match targets with
    | some targets => (none, draft.addEdge current targets.header (.blank "continue") span.pos)
    | none => (none, draft)
  | foreign .. | missing => (none, draft)

def lowerAll (targets : Option JumpTargets) (body : List Stmt) (current : Nat) (draft : Draft) :
    Option Nat × Draft :=
  match body with
  | [] => (some current, draft)
  | first :: rest =>
    match lower targets first current draft with
    | (none, draft) => (none, draft)
    | (some next, draft) => lowerAll targets rest next draft

end

end Stmt

/-- Why a program has no control-flow graph.  The last two never arise from the lowering. -/
inductive BuildError where
  | unsupported (error : Unsupported)
  | duplicateEdge (source target : Node)
  | unreachableNode (node : Node) (graph : String)
deriving Repr

namespace FlowGraph

/-- The graph of a lowered program: the end of the program is the exit unless some return has
created one. -/
def ofDraft (name : String) (entry : Nat) (last : Option Nat) (draft : Draft) : FlowGraph :=
  let (exit, draft) := match last, draft.exit with
    | none, exit => (exit.getD 0, draft)
    | some last, none => (last, draft)
    | some last, some exit => (exit, draft.addEdge last exit (.blank "return"))
  { toNetwork := draft.toNetwork, name, entry, exit }

def lowered (name : String) (program : Stmt) : FlowGraph :=
  let (entry, draft) := ({} : Draft).addNode
  let (last, draft) := program.lower none entry draft
  ofDraft name entry last draft

/-- The first edge that starts where it ends or that has the ends of an edge in `before`. -/
def duplicateAmong? (before : List Edge) : List Edge → Option Edge
  | [] => none
  | edge :: rest =>
    if edge.source = edge.target ∨
        before.any (fun other => other.source == edge.source && other.target == edge.target) then
      some edge
    else duplicateAmong? (edge :: before) rest

def fault? (graph : FlowGraph) : Option BuildError :=
  match duplicateAmong? [] graph.edges with
  | some edge => some (.duplicateEdge (graph.node edge.source) (graph.node edge.target))
  | none =>
    let reached := graph.reachable
    (graph.nodes.find? fun node => !reached.contains node.id).map (.unreachableNode · graph.name)

def builtMessage (graph : FlowGraph) : LogMessage :=
  .ofText .debug ("built CFA " ++ graph.name ++ ": " ++ toString graph.nodes.length ++ " nodes, " ++
    toString graph.edges.length ++ " edges, " ++ toString graph.loopHeads.length ++ " loops\n")

def build (name : String) (program : Stmt) : Except BuildError FlowGraph × List LogMessage :=
  let survey := program.survey false
  let notes := survey.dead.map DeadCode.message
  match survey.error with
  | some error => (.error (.unsupported error), notes)
  | none =>
    let graph := lowered name program
    match graph.fault? with
    | some error => (.error error, notes)
    | none => (.ok graph, notes ++ [graph.builtMessage])

end FlowGraph

namespace BuildError

def message? : BuildError → Option String
  | unsupported error => error.message?
  | duplicateEdge source target =>
    some ("cfa builder: duplicate edge " ++ source.text ++ " -> " ++ target.text)
  | unreachableNode node graph =>
    some ("node " ++ node.text ++ " of CFA " ++ graph ++ " is not reachable from the entry")

end BuildError

end Reachability
