import PrefillOpt.Lib.FlowShop
import PrefillOpt.Lib.Pareto
import Mathlib.Data.List.MinMax
import Mathlib.Data.List.Sort

/-!
# DerivePP — the planner that cuts a model into pipeline stages

`src/prefill_bench/derivepp.py`.  The costs are a table over an ordered group `K`, so the
arithmetic is exact.  A row (a numpy vector with one component per micro-batch) is a function of the
micro-batch; its length `M` goes along as a number.
-/

namespace PrefillOpt
namespace Planner

open Lib

/-! ## The instance -/

/-- One micro-batch: its first token, its length, its end, its (query, key) pairs. -/
structure Chunk where
  u : Nat
  b : Nat
  l : Nat
  a : Nat
deriving DecidableEq, Repr

inductive PlanError where
  /-- Python's `IndexError`. -/
  | indexError
  /-- Python's `ValueError`. -/
  | valueError
  /-- The loop over the tokens does not end. -/
  | endless
deriving DecidableEq, Repr

/-- The loop of `chunk_geometry` from token `u` on, for at most `fuel` rounds. -/
def chunkLoop (S_exec B : Nat) : Nat → Nat → Option (List Chunk)
  | 0, u => if u < S_exec then none else some []
  | fuel + 1, u =>
      if u < S_exec then
        let b := min B (S_exec - u)
        let a := b * u + b * (b + 1) / 2
        (chunkLoop S_exec B fuel (u + b)).map (⟨u, b, u + b, a⟩ :: ·)
      else some []

/-- Every round but the last takes `B` tokens, so with `0 < B` there are at most `S_exec`. -/
def chunkGeometry (S_exec B : Nat) : Except PlanError (List Chunk) :=
  match chunkLoop S_exec B S_exec 0 with
  | some geom => .ok geom
  | none => .error .endless

/-- The nodes in the order of the stages; `root` is stage 0. -/
def stageNodes : List String :=
  ["root", "113", "166", "191", "103", "94", "104", "54"]

/-- What calibration and the link model give: the time of one micro-batch in the first attention
sub-block of a stage, in every further one, in an ff sub-block and in the head, and the time to send
`b` tokens from one node to another. -/
structure CostTable (K : Type) where
  att0 : String → Chunk → K
  att : String → Chunk → K
  ff : String → Chunk → K
  head : String → Chunk → K
  link : String → String → Nat → K

variable {K : Type} [AddCommGroup K] [LinearOrder K]

structure CostTable.Nonneg (t : CostTable K) : Prop where
  att0 : ∀ n c, 0 ≤ t.att0 n c
  att : ∀ n c, 0 ≤ t.att n c
  ff : ∀ n c, 0 ≤ t.ff n c
  head : ∀ n c, 0 ≤ t.head n c
  link : ∀ n n' b, 0 ≤ t.link n n' b

/-! ## The cost of a stage -/

/-- Sub-blocks with an even index are attention. -/
def nAttIn (a bnd : Nat) : Nat :=
  ((bnd - a) + (if a % 2 = 0 then 1 else 0)) / 2

/-- The costs of the sub-blocks `[a, bnd)`, one component per micro-batch. -/
def stageCostVec (attA ffA : Nat → K) (headA : Option (Nat → K)) (a bnd : Nat)
    (att0A : Option (Nat → K)) : Nat → K :=
  let na := nAttIn a bnd
  let nf := (bnd - a) - na
  let c := match att0A with
    | some att0A => if 0 < na then att0A + (na - 1) • attA + nf • ffA else na • attA + nf • ffA
    | none => na • attA + nf • ffA
  match headA with
  | none => c
  | some headA => c + headA

/-- The same for one micro-batch. -/
def stageCost (att ff : Nat → K) (a bnd j : Nat) (head att0 : Option (Nat → K)) : K :=
  let na := nAttIn a bnd
  let nf := (bnd - a) - na
  let c := match att0 with
    | some att0 => if 0 < na then att0 j + (na - 1) • att j + nf • ff j else na • att j + nf • ff j
    | none => na • att j + nf • ff j
  match head with
  | none => c
  | some head => c + head j

/-! ## The makespan of given rows -/

/-- The loop over the micro-batches of one stage: `last` after micro-batch `j`. -/
def stageLoop (ready cost : Nat → K) : Nat → K
  | 0 => (if ready 0 > 0 then ready 0 else 0) + cost 0
  | j + 1 =>
      let last := stageLoop ready cost j
      (if ready (j + 1) > last then ready (j + 1) else last) + cost (j + 1)

/-- The loop over the stages from stage `k` on. -/
def makespanFrom (links : Nat → Nat → K) : Nat → (Nat → K) → List (Nat → K) → Nat → K
  | _, prev, [] => prev
  | k, prev, row :: rows =>
      makespanFrom links (k + 1)
        (stageLoop (fun j => prev j + (if 0 < k then links k j else 0)) row) rows

/-- `prev[-1]`, the last of the `M` components. -/
def lastOf (M : Nat) (v : Nat → K) : Except PlanError K :=
  if M = 0 then .error .indexError else .ok (v (M - 1))

def makespan (costRows : List (Nat → K)) (links : Nat → Nat → K) (M : Nat) : Except PlanError K :=
  lastOf M (makespanFrom links 0 (fun _ => 0) costRows)

/-- All of the first `M` components are at most as large. -/
def dominates (M : Nat) (a b : Nat → K) : Bool :=
  (List.range M).all fun j => decide (a j ≤ b j)

/-! ## The rows of an instance -/

/-- A list of one value per micro-batch, as a row. -/
def rowOf (geom : List Chunk) (f : Chunk → K) : Nat → K :=
  fun j => (geom.map f).getD j 0

def nodeAt (nodes : List String) (k : Nat) : Except PlanError String :=
  match nodes[k]? with
  | some n => .ok n
  | none => .error .indexError

/-- `lk[k]` for stage `k`: zero for the first stage. -/
def linkRow (t : CostTable K) (nodes : List String) (geom : List Chunk) :
    Nat → Except PlanError (Nat → K)
  | 0 => .ok fun _ => 0
  | k + 1 => do
      let src ← nodeAt nodes k
      let dst ← nodeAt nodes (k + 1)
      .ok (rowOf geom fun c => t.link src dst c.b)

/-- The matrix `lk`. -/
def linkRows (t : CostTable K) (nodes : List String) (geom : List Chunk) (N : Nat) :
    Except PlanError (List (Nat → K)) :=
  (List.range N).mapM (linkRow t nodes geom)

/-- The head costs of stage `k`; only the last of `N` stages has them. -/
def headRow (t : CostTable K) (node : String) (geom : List Chunk) (N k : Nat) : Option (Nat → K) :=
  if k + 1 = N then some (rowOf geom (t.head node)) else none

def execLen (S : Nat) (pad4 : Bool) : Nat :=
  if pad4 then 4 * ((S + 3) / 4) else S

/-! ## The dynamic program -/

/-- A way to give the first sub-blocks to the stages so far: when they finish each micro-batch, and
where the stages end. -/
structure Entry (K : Type) where
  v : Nat → K
  cuts : List Nat

/-- The dictionary from the number of sub-blocks given away to the entries, in insertion order. -/
abbrev Frontier (K : Type) := List (Nat × List (Entry K))

/-- `cur = C + np.maximum.accumulate(V + lkv + c - C)`. -/
def extendRow (lkv c V : Nat → K) : Nat → K :=
  fun j => cumsum c j + runningMax (fun i => V i + lkv i + c i - cumsum c i) j

/-- `acc[e]` gets further entries. -/
def accAdd (acc : Frontier K) (e : Nat × List (Entry K)) : Frontier K :=
  match acc with
  | [] => [e]
  | f :: acc => if f.1 = e.1 then (f.1, f.2 ++ e.2) :: acc else f :: accAdd acc e

/-- The entries of the frontier that stage `k` prolongs, in the order of the two loops; `cost i e`
is the cost of the sub-blocks `[i, e)`. -/
def expand (L remain : Nat) (lkv : Nat → K) (cost : Nat → Nat → Nat → K) (frontier : Frontier K) :
    Frontier K :=
  frontier.flatMap fun (i, entries) =>
    (List.range' (i + 1) (L - remain - i)).map fun e =>
      (e, entries.map fun x => ⟨extendRow lkv (cost i e) x.v, x.cuts ++ [e]⟩)

/-- Sort by the last component, drop what is dominated, keep at most `keep` (when it is given and
not 0). -/
def paretoFront (M : Nat) (keep : Option Nat) (entries : List (Entry K)) : List (Entry K) :=
  let order := entries.insertionSort fun a b => a.v (M - 1) ≤ b.v (M - 1)
  let kept := prune (fun a b => dominates M a.v b.v) order
  match keep with
  | some (n + 1) => kept.take (n + 1)
  | _ => kept

/-- One round of the loop over the stages. -/
def stageStep (t : CostTable K) (N L : Nat) (geom : List Chunk) (nodes : List String)
    (lk : List (Nat → K)) (keep : Option Nat) (frontier : Frontier K) (k : Nat) :
    Except PlanError (Frontier K) := do
  let node ← nodeAt nodes k
  let hd := headRow t node geom N k
  let remain := N - k - 1
  let lkv := lk.getD k fun _ => 0
  let cost := fun i e =>
    stageCostVec (rowOf geom (t.att node)) (rowOf geom (t.ff node)) hd i e
      (some (rowOf geom (t.att0 node)))
  let acc := (expand L remain lkv cost frontier).foldl accAdd []
  -- `V[:, -1]` of a matrix without columns
  if !acc.isEmpty && geom.length == 0 then .error .indexError
  else .ok (acc.map fun (e, entries) => (e, paretoFront geom.length keep entries))

structure Plan (K : Type) where
  S : Nat
  S_exec : Nat
  N : Nat
  B : Nat
  M : Nat
  T : K
  cuts : List Nat
  nodes : List String

/-- `np.argmin(V[:, -1])` over the entries of `frontier[L]`, when there are any. -/
def pickEntry (M : Nat) (entries : List (Entry K)) : Except PlanError (Option (Entry K)) :=
  if entries.isEmpty then .ok none
  else if M = 0 then .error .indexError
  else .ok (entries.argmin fun x => x.v (M - 1))

def planFor (t : CostTable K) (nLayers S N B : Nat) (pad4 : Bool) (keep : Option Nat) :
    Except PlanError (Option (Plan K)) := do
  let L := 2 * nLayers
  if N > L then return none
  let S_exec := execLen S pad4
  let geom ← chunkGeometry S_exec B
  let M := geom.length
  let nodes := stageNodes.take N
  let lk ← linkRows t nodes geom N
  let frontier ←
    (List.range N).foldlM (stageStep t N L geom nodes lk keep) [(0, [⟨fun _ => 0, []⟩])]
  let best ← pickEntry M ((frontier.lookup L).getD [])
  return best.map fun x => ⟨S, S_exec, N, B, M, x.v (M - 1), x.cuts, nodes⟩

/-! ## The enumeration -/

/-- `itertools.combinations`, in its order. -/
def combinations : Nat → List Nat → List (List Nat)
  | 0, _ => [[]]
  | _ + 1, [] => []
  | n + 1, x :: xs => (combinations n xs).map (x :: ·) ++ combinations (n + 1) xs

/-- The rows of the stages from stage `k` on, that end at the given boundaries. -/
def costRows (t : CostTable K) (nodes : List String) (geom : List Chunk) (N : Nat) :
    Nat → Nat → List Nat → Except PlanError (List (Nat → K))
  | _, _, [] => .ok []
  | k, a, bnd :: bnds => do
      let node ← nodeAt nodes k
      let row := fun j =>
        stageCost (rowOf geom (t.att node)) (rowOf geom (t.ff node)) a bnd j
          (headRow t node geom N k) (some (rowOf geom (t.att0 node)))
      let rows ← costRows t nodes geom N (k + 1) bnd bnds
      .ok (row :: rows)

/-- The makespan of the stages that end at `cuts`. -/
def cutsMakespan (t : CostTable K) (nodes : List String) (geom : List Chunk) (N : Nat)
    (lk : List (Nat → K)) (cuts : List Nat) : Except PlanError K := do
  let rows ← costRows t nodes geom N 0 0 cuts
  makespan rows (fun k => lk.getD k fun _ => 0) geom.length

/-- The makespan of the instance, cut at `cuts`. -/
def splitMakespan (t : CostTable K) (S N B : Nat) (pad4 : Bool) (cuts : List Nat) :
    Except PlanError K := do
  let geom ← chunkGeometry (execLen S pad4) B
  let nodes := stageNodes.take N
  let lk ← linkRows t nodes geom N
  cutsMakespan t nodes geom N lk cuts

/-- `if best is None or T < best[0]: best = (T, cuts)`. -/
def better (best : Option (K × List Nat)) (T : K) (cuts : List Nat) : Option (K × List Nat) :=
  match best with
  | none => some (T, cuts)
  | some b => if T < b.1 then some (T, cuts) else some b

/-- The body of the loop over the cuts. -/
def tryCuts (t : CostTable K) (nodes : List String) (geom : List Chunk) (N : Nat)
    (lk : List (Nat → K)) (best : Option (K × List Nat)) (cuts : List Nat) :
    Except PlanError (Option (K × List Nat)) := do
  let T ← cutsMakespan t nodes geom N lk cuts
  .ok (better best T cuts)

def bruteForce (t : CostTable K) (nLayers S N B : Nat) (pad4 : Bool) :
    Except PlanError (Option (K × List Nat)) := do
  let L := 2 * nLayers
  let geom ← chunkGeometry (execLen S pad4) B
  let nodes := stageNodes.take N
  let lk ← linkRows t nodes geom N
  -- `itertools.combinations` refuses a negative length
  if N = 0 then .error .valueError
  else
    let cuts := (combinations (N - 1) (List.range' 1 (L - 1))).map (· ++ [L])
    cuts.foldlM (tryCuts t nodes geom N lk) none

end Planner
end PrefillOpt
