import PathCopy.Path.Basic

/-!
Key paths as a tree. Paths that begin alike share a branch; the branches of a node stand in the
order in which their keys first appear in the list of paths.
-/

namespace PathCopy

mutual

/-- A node of the tree: the effects of the paths that end here, and those that go on. -/
inductive KeyTree
  | node (ends : List Effect) (branches : KeyBranches)

inductive KeyBranches
  | nil
  | cons (key : String) (tree : KeyTree) (rest : KeyBranches)

end

namespace KeyTree

def empty : KeyTree := .node [] .nil

def ends : KeyTree → List Effect
  | .node ends _ => ends

def branches : KeyTree → KeyBranches
  | .node _ branches => branches

def isLeaf : KeyTree → Bool
  | .node _ .nil => true
  | .node _ (.cons ..) => false

def single (effect : Effect) : List String → KeyTree
  | [] => .node [effect] .nil
  | key :: keys => .node [] (.cons key (single effect keys) .nil)

end KeyTree

mutual

def KeyTree.insert (effect : Effect) : List String → KeyTree → KeyTree
  | [], .node ends branches => .node (ends ++ [effect]) branches
  | key :: keys, .node ends branches => .node ends (KeyBranches.insert effect key keys branches)

def KeyBranches.insert (effect : Effect) (key : String) (keys : List String) :
    KeyBranches → KeyBranches
  | .nil => .cons key (KeyTree.single effect keys) .nil
  | .cons k tree rest =>
    if k = key then .cons k (KeyTree.insert effect keys tree) rest
    else .cons k tree (KeyBranches.insert effect key keys rest)

end

def KeyTree.ofPaths (paths : List KeyPath) : KeyTree :=
  paths.foldl (fun t p => t.insert p.effect p.keys) .empty

/-- The keys where every path ends with the removal of a map entry. -/
def KeyBranches.dropped : KeyBranches → List String
  | .nil => []
  | .cons key tree rest =>
    if tree.isLeaf && tree.ends.all (· == .mapDelete) then key :: rest.dropped else rest.dropped

end PathCopy
