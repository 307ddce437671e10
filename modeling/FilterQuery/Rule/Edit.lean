import FilterQuery.Rule.Path

/-!
Edits of a rule that address its nodes by paths. An edit that does not apply leaves the rule as it
is. After one that does, no chain below the root is empty.
-/

namespace FilterQuery

inductive Placement where
  | before
  | after
  /-- As the last child of the chain. -/
  | into
  deriving DecidableEq, Repr

inductive Edit where
  | drop (path : Path)
  | insert (path : Path) (placement : Placement) (rule : Rule)
  | move (source : Path) (placement : Placement) (target : Path)
  | negate (path : Path)
  | setConnective (path : Path) (op : Connective)
  deriving Repr

namespace Rule

/-- The node at a path, and the rule without it. Without its root a rule is empty. -/
def remove? : Rule → Path → Option (Rule × Rule)
  | r, [] => some (r, empty)
  | condition _, _ :: _ => none
  | chain op children, [i] => children[i]?.map fun r => (r, chain op (children.eraseIdx i))
  | chain op children, i :: j :: path =>
    match children[i]? with
    | some r =>
      (remove? r (j :: path)).map fun (removed, r') => (removed, chain op (children.set i r'))
    | none => none

/-- Puts `added` beside the whole rule: as a further child of an `all` or `any` chain, in a new
`all` chain otherwise. -/
def insertAtRoot (added : Rule) (before : Bool) : Rule → Rule
  | chain .all children => chain .all (if before then added :: children else children ++ [added])
  | chain .any children => chain .any (if before then added :: children else children ++ [added])
  | r => chain .all (if before then [added, r] else [r, added])

/-- Makes `added` a sibling of the node at a path. -/
def insertBeside? (added : Rule) (before : Bool) : Rule → Path → Option Rule
  | r, [] => some (insertAtRoot added before r)
  | condition _, _ :: _ => none
  | chain op children, [i] =>
    if i < children.length then
      some (chain op (children.insertIdx (if before then i else i + 1) added))
    else none
  | chain op children, i :: j :: path =>
    match children[i]? with
    | some r =>
      (insertBeside? added before r (j :: path)).map fun r' => chain op (children.set i r')
    | none => none

/-- Makes `added` the last child of a chain. -/
def append? (added : Rule) : Rule → Option Rule
  | condition _ => none
  | chain op children => some (chain op (children ++ [added]))

def insert? (added : Rule) (placement : Placement) (r : Rule) (path : Path) : Option Rule :=
  match placement with
  | .before => insertBeside? added true r path
  | .after => insertBeside? added false r path
  | .into => r.modify? (append? added) path

/-- The node at `source` moved next to or into the one at `target`, which must not lie inside of it.
-/
def move? (r : Rule) (source : Path) (placement : Placement) (target : Path) : Option Rule :=
  if source <+: target || (r.get? target).isNone then none
  else
    match r.remove? source with
    | some (moved, rest) => insert? moved placement rest (Path.afterRemoval source target)
    | none => none

/-- The opposite of a node. A `none` chain of one child is undone. -/
def oppose : Rule → Rule
  | chain .none [r] => r
  | r => r.negate

def withConnective? (op : Connective) : Rule → Option Rule
  | condition _ => none
  | chain _ children => some (chain op children)

mutual

/-- The rule without the empty chains below its root, of which some may have become so only by
this. -/
def prune : Rule → Rule
  | condition c => condition c
  | chain op children => chain op (pruneAll children)

def pruneAll : List Rule → List Rule
  | [] => []
  | r :: rs => if r.prune.isEmpty then pruneAll rs else r.prune :: pruneAll rs

end

theorem pruneAll_eq (rs : List Rule) : pruneAll rs = (rs.map prune).filter (!·.isEmpty) := by
  induction rs with
  | nil => rfl
  | cons r rs ih =>
    rw [pruneAll, ih]
    cases h : r.prune.isEmpty <;> simp [h]

end Rule

namespace Edit

/-- What becomes of the rule before empty chains are removed; `none` if the edit does not apply. -/
def attempt? (r : Rule) : Edit → Option Rule
  | drop path => (r.remove? path).map (·.2)
  | insert path placement rule => Rule.insert? rule placement r path
  | move source placement target => r.move? source placement target
  | negate path => r.modify? (fun node => some node.oppose) path
  | setConnective path op => r.modify? (Rule.withConnective? op) path

def apply (e : Edit) (r : Rule) : Rule :=
  match e.attempt? r with
  | some r' => r'.prune
  | none => r

/-- Applies edits in order. -/
def applyAll (es : List Edit) (r : Rule) : Rule :=
  es.foldl (fun r e => e.apply r) r

end Edit
end FilterQuery
