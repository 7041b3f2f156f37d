import Bohrium.Dag.Graph

/-! # The fusers

`fuse_gently`, `fuse_greedy`, `split` and `dag_validate` (`core/bh_dag.cpp`), the branch-and-bound
search of `fuser/optimal/fuser.cpp`, and the `do_fusion` of the five fusers. -/
namespace Bohrium
open Edges
set_option autoImplicit false

section
variable (model : FuseModel) (l : List BhInstruction)

/-! ## Gentle and greedy fusion -/

namespace GraphDW

/-- The only neighbour of a vertex that ends (or starts) there, if the neighbour's in- and output
contains the vertex's; `true` if the neighbour comes first. -/
def singleEnding (g : GraphDW) (v : ℕ) : Option (ℕ × Bool) :=
  match g.inNeighbours v, g.outNeighbours v with
  | [], [w] => if (g.kernel v).inputAndOutputSubsetOf (g.kernel w) then some (w, false) else none
  | [w], [] => if (g.kernel v).inputAndOutputSubsetOf (g.kernel w) then some (w, true) else none
  | _, _ => none

/-- The loop of `fuse_gently`; every round takes a vertex out of `vs`. -/
def fuseGentlyLoop : ℕ → List ℕ → GraphDW → GraphDW
  | 0, _, g => g
  | fuel + 1, vs, g =>
    match vs.findSome? fun v => (g.singleEnding v).map fun p => (v, p.1, p.2) with
    | none => g
    | some (v, w, wBeforeV) =>
      fuseGentlyLoop fuel (vs.erase v)
        (if (g.kernel v).fusibleKernel model l (g.kernel w) then g.mergeVertices model l w v wBeforeV
        else g)

def fuseGently (g : GraphDW) : GraphDW :=
  (fuseGentlyLoop model l g.numVertices (List.range g.numVertices) g).removeClearedVertices

/-- The first edge of greatest weight. -/
def greatest (e : EdgeW) (es : List EdgeW) : EdgeW :=
  es.foldl (fun best e => if best.value < e.value then e else best) e

/-- One round of `fuse_greedy`. -/
def greedyStep (g : GraphDW) (v1 v2 : ℕ) : GraphDW :=
  if pathExist v1 v2 g.edgesD true || pathExist v2 v1 g.edgesD true then g.removeEdges v1 v2
  else if (g.kernel v1).dependency l (g.kernel v2) = 1 then g.mergeVertices model l v2 v1 true
  else g.mergeVertices model l v1 v2 true

def fuseGreedyLoop : ℕ → GraphDW → GraphDW
  | 0, g => g
  | fuel + 1, g =>
    match g.edgesW with
    | [] => g
    | e :: es => fuseGreedyLoop fuel (g.greedyStep model l (greatest e es).source (greatest e es).target)

/-- Rounds that are enough: a merge clears a vertex, and between merges edges only go. -/
def greedyFuel (g : GraphDW) : ℕ := g.numVertices * (g.numVertices * g.numVertices + 1) + g.edgesW.length

def fuseGreedy (g : GraphDW) : GraphDW :=
  (fuseGreedyLoop model l g.greedyFuel g).removeClearedVertices

/-! ## Splitting -/

/-- `add_from_subgraph` into an empty graph. -/
def subgraph (g : GraphDW) (sub : List ℕ) : GraphDW :=
  { kernels := sub.map g.kernel
    edgesD := (g.edgesD.filter fun e => e.1 ∈ sub ∧ e.2 ∈ sub).map fun e => (sub.idxOf e.1, sub.idxOf e.2)
    numW := sub.length
    edgesW := (g.edgesW.filter fun e => e.source ∈ sub ∧ e.target ∈ sub).map fun e =>
      ⟨sub.idxOf e.source, sub.idxOf e.target, e.value⟩ }

end GraphDW

/-- The graph of components: sets of vertices, and edges between different components. -/
structure GraphComp where
  comps : List (List ℕ)
  edges : List (ℕ × ℕ)
  deriving DecidableEq, Repr

def componentGraph (boost : Boost) (g : GraphDW) : GraphComp :=
  let (num, comp) := boost.connectedComponents g.numVertices (g.edgesW.map fun e => (e.source, e.target))
  { comps := (List.range num).map fun c => (List.range g.numVertices).filter fun v => comp v == c
    edges := g.edgesD.foldl (fun E e =>
      if comp e.1 ≠ comp e.2 then setInsert (comp e.1, comp e.2) E else E) [] }

/-- One component of a strongly connected set merged into the root. -/
def mergeComponent (root : ℕ) (c : GraphComp) (it : ℕ) : GraphComp :=
  let ids := List.range c.comps.length
  let outs := ids.filter fun v => (it, v) ∈ c.edges ∧ v ≠ root
  let ins := ids.filter fun v => (v, it) ∈ c.edges ∧ v ≠ root
  let edges := ins.foldl (fun E v => setInsert (v, root) E)
    (outs.foldl (fun E v => setInsert (root, v) E) c.edges)
  { comps := (c.comps.set root (c.comps.getD root [] ++ c.comps.getD it [])).set it []
    edges := edges.filter fun e => e.1 ≠ it ∧ e.2 ≠ it }

/-- The strongly connected components of the component graph merged. -/
def mergeStrong (boost : Boost) (c : GraphComp) : GraphComp :=
  let (num, strong) := boost.strongComponents c.comps.length c.edges
  (List.range num).foldl (fun acc s =>
    match (List.range c.comps.length).filter fun v => strong v == s with
    | [] => acc
    | root :: rest => rest.foldl (mergeComponent root) acc) c

/-- `split`: the merged components in topological order, each as a graph of its own. A set of
vertices is enumerated in increasing order. -/
def split (boost : Boost) (g : GraphDW) : Option (List GraphDW) :=
  let c := mergeStrong boost (componentGraph boost g)
  (boost.topologicalSort c.comps.length c.edges).map fun order =>
    (order.reverse.filter fun v => c.comps.getD v [] ≠ []).map fun v =>
      g.subgraph ((List.range g.numVertices).filter (· ∈ c.comps.getD v []))

/-! ## Validation -/

/-- `dag_validate` with transitive edges allowed. -/
def dagValidate (boost : Boost) (g : GraphDW) : Bool :=
  let vs := List.range g.numVertices
  decide (g.numVertices = g.numW) &&
    decide ((vs.flatMap fun v => (g.kernel v).instrIndexes).Nodup) &&
    (boost.topologicalSort g.numVertices g.edgesD).isSome &&
    vs.all (fun v1 => vs.all fun v2 =>
      v1 == v2 || (g.kernel v1).dependency l (g.kernel v2) != 1 || pathExist v2 v1 g.edgesD false) &&
    g.edgesD.all fun e =>
      let cost := (g.kernel e.1).mergeCostSavings model l (g.kernel e.2)
      cost == -1 || (findEdgeW e.1 e.2 g.edgesW).any (·.value == cost)

end

/-! ## Branch and bound -/

section
variable (boost : Boost) (model : FuseModel) (l : List BhInstruction)

def dagCost (g : GraphDW) : ℤ := (g.kernels.map fun k => (k.cost : ℤ)).sum

/-- `find_new_location`: follow the map to a vertex that stays. -/
def findLoc : ℕ → (ℕ → ℕ) → ℕ → ℕ
  | 0, _, v => v
  | fuel + 1, locMap, v => if locMap v = v then v else findLoc fuel locMap (locMap v)

/-- The merges recorded in `loc_map`, which is then packed to map every vertex to its final one. A
chain is no longer than the number of recorded merges. -/
def locMap (edges2merge : List EdgeW) : ℕ → ℕ :=
  let fuel := edges2merge.length
  let loc := edges2merge.foldl (fun loc e =>
    Function.update loc (findLoc fuel loc e.source) (findLoc fuel loc e.target)) id
  fun v => findLoc fuel loc (loc v)

/-- Whether every instruction passes `fusible(idx)` as it is added. -/
def fusibleOneByOne : BhIrKernel → List ℕ → Bool
  | _, [] => true
  | k, idx :: rest => k.fusibleInstr model l idx && fusibleOneByOne (k.addInstr l idx) rest

/-- One vertex merged into its new location. -/
def relocate (n : ℕ) (loc : ℕ → ℕ) (E : List (ℕ × ℕ)) (v : ℕ) : List (ℕ × ℕ) :=
  if loc v = v then E
  else
    let outs := (List.range n).filter fun a => (v, a) ∈ E ∧ loc a ≠ loc v
    let ins := (List.range n).filter fun a => (a, v) ∈ E ∧ loc a ≠ loc v
    let E := ins.foldl (fun E a => setInsert (loc a, loc v) E)
      (outs.foldl (fun E a => setInsert (loc v, loc a) E) E)
    E.filter fun e => e.1 ≠ v ∧ e.2 ≠ v

/-- `fuse_mask`: the cost, whether the result is to be used, and the fused graph. -/
def fuseMask (bestCost : ℤ) (edges2explore : List EdgeW) (g : GraphDW) (mask : List Bool) :
    Option (ℤ × Bool × GraphDW) :=
  let loc := locMap (((edges2explore.zip mask).filter (·.2)).map (·.1))
  let vs := List.range g.numVertices
  (boost.topologicalSort g.numVertices g.edgesD).map fun order =>
    let members := fun v => (order.reverse.filter fun u => loc u == v).flatMap fun u =>
      (g.kernel u).instrIndexes
    let newVertex := fun v => (members v).foldl (BhIrKernel.addInstr l) {}
    let fusibility := vs.all fun v => fusibleOneByOne model l {} (members v)
    let cost := ((vs.filter fun v => loc v = v).map fun v => ((newVertex v).cost : ℤ)).sum
    if bestCost ≤ cost || !fusibility then (cost, false, g)
    else
      let g' : GraphDW :=
        { kernels := vs.map fun v => if loc v = v then newVertex v else {}
          edgesD := vs.foldl (relocate g.numVertices loc) g.edgesD
          numW := g.numVertices }
      (cost, (boost.topologicalSort g'.numVertices g'.edgesD).isSome, g')

/-- What the threads leave open in one round: which task is taken, and the values of `best_cost`
that `fuse_mask` and the test after it see. -/
structure Race where
  pick : ℕ
  bound : ℤ → ℤ
  seen : ℤ → ℤ

/-- One thread: the last task, and the current bound. -/
def oneThread (tasks : ℕ) : Race := ⟨tasks - 1, id, id⟩

abbrev Task := List Bool × ℕ

structure Search where
  tasks : List Task
  bestCost : ℤ
  bestDag : GraphDW

/-- The tasks that a task which was not fusible leaves behind. -/
def branches (task : Task) : List Task :=
  (((List.range task.1.length).filter fun i => task.2 ≤ i).reverse).map fun i =>
    (task.1.set i false, i + 1)

/-- One round of the search loop. -/
def searchStep (edges2explore : List EdgeW) (g : GraphDW) (race : Race) (s : Search) : Option Search :=
  match s.tasks[race.pick % s.tasks.length]? with
  | none => some s
  | some task =>
    let tasks := s.tasks.eraseIdx (race.pick % s.tasks.length)
    (fuseMask boost model l (race.bound s.bestCost) edges2explore g task.1).map fun r =>
      if race.seen s.bestCost ≤ r.1 then { s with tasks := tasks }
      else if r.2.1 then ⟨tasks, r.1, r.2.2⟩
      else { s with tasks := tasks ++ branches task }

/-- The rounds that are left: a task at offset `o` spawns tasks at larger offsets only. -/
def searchFuel (tasks : List Task) : ℕ := (tasks.map fun t => 2 ^ (t.1.length - t.2)).sum

def searchLoop (edges2explore : List EdgeW) (g : GraphDW) (race : ℕ → Search → Race) :
    ℕ → Search → Option Search
  | 0, s => some s
  | fuel + 1, s =>
    if s.tasks = [] then some s
    else (searchStep boost model l edges2explore g (race fuel s) s).bind
      (searchLoop edges2explore g race fuel)

/-- `branch_n_bound`, from the greedy solution. -/
def branchNBound (race : ℕ → Search → Race) (edges2explore : List EdgeW) (g : GraphDW)
    (initMask : List Bool) (initOffset : ℕ) : Option GraphDW :=
  let greedy := g.fuseGreedy model l
  let s : Search := ⟨[(initMask, initOffset)], dagCost greedy, greedy⟩
  (searchLoop boost model l edges2explore g race (searchFuel s.tasks) s).map fun s =>
    -- a graph made from a dependency graph alone has no weight edges
    { kernels := s.bestDag.kernels, edgesD := s.bestDag.edgesD, numW := s.bestDag.numVertices }

/-- `BH_FUSER_OPTIMAL_ORDER`; `random_shuffle` permutes. -/
inductive ExploreOrder
  | regular | reverse
  | random (shuffle : List EdgeW → List EdgeW) (perm : ∀ es, (shuffle es).Perm es)

/-- `get_edges2explore`: by falling weight, unless the environment asks for another order. -/
def edgesToExplore (order : ExploreOrder) (g : GraphDW) : List EdgeW :=
  let sorted := g.edgesW.insertionSort fun a b => b.value ≤ a.value
  match order with
  | .regular => sorted
  | .reverse => sorted.reverse
  | .random shuffle _ => shuffle sorted

/-- The settings of the optimal fuser: the environment (`preload` is the mask of
`BH_FUSER_OPTIMAL_PRELOAD`, empty if unset) and the choices of the threads. -/
structure OptimalEnv where
  order : ExploreOrder
  preload : List Bool
  race : ℕ → Search → Race

def fuseOptimal (env : OptimalEnv) (g : GraphDW) : Option GraphDW :=
  let edges2explore := edgesToExplore env.order g
  let n := edges2explore.length
  if n = 0 then some g
  else
    let preload := if 10 < n then env.preload.take n else []
    let mask := preload ++ List.replicate (n - preload.length) true
    branchNBound boost model l env.race edges2explore g mask (preload.length - 1)

/-! ## The five fusers -/

inductive Fuser
  | singleton | topological | gentle | greedy | optimal (env : OptimalEnv)

/-- `do_fusion`; `none` if a topological sort throws. -/
def doFusion : Fuser → Option (List BhIrKernel)
  | .singleton => some (kernelRuns l fun _ _ => false)
  | .topological => some (kernelRuns l fun k idx => k.fusibleInstr model l idx)
  | .gentle => do
    let dags ← split boost (fromBhir l model)
    let kernels ← (dags.map fun d => d.fuseGently model l).mapM (fillKernelList l boost)
    return kernels.flatten
  | .greedy => do
    let dags ← split boost (fromBhir l model)
    let kernels ← (dags.map fun d => (d.fuseGently model l).fuseGreedy model l).mapM
      (fillKernelList l boost)
    return kernels.flatten
  | .optimal env => do
    let dags ← split boost (fromBhir l model)
    let dags ← dags.mapM fun d =>
      fuseOptimal boost model l env (d.fuseGently model l).transitiveReduction
    let kernels ← dags.mapM (fillKernelList l boost)
    return kernels.flatten

end
end Bohrium
