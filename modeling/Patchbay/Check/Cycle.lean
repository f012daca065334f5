import Patchbay.Wire

/-! # Cycles of value wires

Nodes that depend on a cycle of value wires, found by peeling: a node without unsettled wires into
it is settled, which settles the wires out of it, and so on. What is never settled lies on a cycle
or behind one.
-/

namespace Patchbay

/-- The source and the target of each wire that carries values between two different known nodes. -/
def valueEdges (ids : List String) (ws : List Wire) : List (String × String) :=
  (ws.filter fun w => !w.isFlow && w.source ≠ w.target && ids.contains w.source &&
    ids.contains w.target).map fun w => (w.source, w.target)

/-- How far peeling has come: for each node the number of unsettled wires into it, and the nodes
that were settled but not looked at. -/
structure Peeling where
  degrees : Table String Nat
  queue : List String

namespace Peeling

/-- One more wire into a node. -/
def addEdge (degrees : Table String Nat) (target : String) : Table String Nat :=
  degrees.insert target ((degrees.find? target).getD 0 + 1)

/-- The beginning: all wires are unsettled, and the nodes without wires into them are settled. -/
def start (ids : List String) (edges : List (String × String)) : Peeling :=
  let degrees := edges.foldl (fun t e => addEdge t e.2) (Table.ofList (ids.map (·, 0)))
  { degrees, queue := (degrees.entries.filter (·.2 = 0)).map (·.1) }

/-- Settles one wire into a node; the last one settles the node. -/
def settle (s : Peeling) (target : String) : Peeling :=
  match s.degrees.find? target with
  | some 1 => { degrees := s.degrees.insert target 0, queue := s.queue ++ [target] }
  | some (d + 2) => { s with degrees := s.degrees.insert target (d + 1) }
  | _ => s

/-- Settles the wires out of a node. -/
def settleFrom (edges : List (String × String)) (node : String) (s : Peeling) : Peeling :=
  (edges.filter (·.1 = node)).foldl (fun s e => s.settle e.2) s

/-- The nodes that are not settled, and those that are settled but not looked at. -/
def work (s : Peeling) : Nat := s.degrees.entries.countP (0 < ·.2) + s.queue.length

theorem work_settle (s : Peeling) (target : String) : (s.settle target).work = s.work := by
  unfold settle
  split
  next h =>
    have := Table.countP_insert (v := 0) (fun e : String × Nat => decide (0 < e.2)) h
    simp only [work, List.length_append, List.length_singleton]
    simp at this
    omega
  next d h =>
    have := Table.countP_insert (v := d + 1) (fun e : String × Nat => decide (0 < e.2)) h
    simp only [work]
    simp at this
    omega
  next => rfl

theorem work_settleFrom (edges : List (String × String)) (node : String) (s : Peeling) :
    (settleFrom edges node s).work = s.work := by
  unfold settleFrom
  induction edges.filter (·.1 = node) generalizing s with
  | nil => rfl
  | cons e es ih => rw [List.foldl_cons, ih, work_settle]

/-- Looks at settled nodes until none is left. -/
def peel (edges : List (String × String)) (s : Peeling) : Table String Nat :=
  match _h : s.queue with
  | [] => s.degrees
  | node :: queue => peel edges (settleFrom edges node { s with queue })
termination_by s.work
decreasing_by
  rw [work_settleFrom]
  simp [work, *]

end Peeling

/-- The nodes on cycles of value wires and those that depend on such a cycle, in ascending order. -/
def unsettledNodes (ids : List String) (ws : List Wire) : List String :=
  let edges := valueEdges ids ws
  ((Peeling.start ids edges).peel edges).entries.filterMap fun e =>
    if 0 < e.2 then some e.1 else none

end Patchbay
