import CheckedExceptions.Analysis.Unhandled
import CheckedExceptions.Diagnostic
import CheckedExceptions.Specificity

/-! Diagnostics for the sites that leave exceptions unhandled. -/

namespace CheckedExceptions

namespace Program

variable {σ : Type} (p : Program σ)

def templateFor (byClosing : Bool) (count : Nat) : Template :=
  if byClosing then .unhandledAtClosing
  else if count = 1 then .oneUnhandled
  else .severalUnhandled

def rethrownFrom? (site : NodeRef) : Option Node :=
  match p.tree.payload? site with
  | some (.throwing expression) =>
    match p.tree.rethrown? expression with
    | some caught =>
      match p.tree.payload? (p.tree.parent caught.clause) with
      | some (.trying parts) => p.tree.node? parts.body
      | _ => none
    | none => none
  | _ => none

/-- The diagnostic of a site. The most specific exceptions are named first, and those that are
rethrown point back to the block that threw them. -/
def explain (st : σ) (site : Site) : Diagnostic :=
  let ordered := Specificity.sort (p.types.isSubtype st) site.exceptions.members
  let names := ordered.map (p.types.nameOf st)
  let template := templateFor site.byClosing names.length
  let file := ((p.tree.enclosingFile? site.node).map Prod.fst).getD ""
  let node := p.tree.node? site.node
  { file := file
    start := (node.map Node.start).getD 0
    length := (node.map Node.width).getD 0
    message := Template.fill template.text [", ".intercalate names]
    code := template.code
    related :=
      match p.rethrownFrom? site.node with
      | some origin => names.map fun name =>
          ⟨file, origin.start, origin.width, Template.fill Template.origin.text [name]⟩
      | none => [] }

/-- One diagnostic for each site at `root` and below that leaves exceptions unhandled up to
`top`. -/
def report (root top : NodeRef) : StateM σ (List Diagnostic) := do
  let sites ← p.sites root top
  let st ← get
  pure (sites.map (p.explain st))

/-- The report on everything at `root` and below, with control flow judged by the syntax. -/
def reportBySyntax (root : NodeRef) : StateM σ (List Diagnostic) :=
  let judged := { p with completion := Completion.syntactic p.tree p.options.maxTreeDepth }
  judged.report root none

end Program

end CheckedExceptions
