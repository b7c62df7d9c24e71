import PS2Bios.Library.LinkedList
import PS2Bios.Library.Patch
import PS2Bios.Library.StableInsert
import Mathlib.Data.Int.Notation
import Mathlib.Order.OrderDual

/-!
# Exception chains in memory

A handler is a structure of its owner's whose first word, `next`, holds the code of the handler the
dispatch is to go on with; a table of sixteen words holds the first of each cause. `rebuild` writes
all of them from the lists of nodes that `EXCEPMAN` keeps for itself.

`mem` is the memory's words by their addresses. A chain of nodes is a list, and of the pool they
come from only the number of free ones is kept.
-/

namespace PS2Bios.Excepman

open Intrusive

/-- The causes an exception can have. -/
def kCauses : ℕ := 16

/-- The nodes there are for registrations. -/
def kNodes : ℕ := 32

/-- Where the table begins that the vector dispatches by. -/
def kCauseTable : ℕ := 0x440

/-- A registration in a cause's chain. -/
structure Node where
  handler : ℕ
  priority : ℕ
deriving DecidableEq, Repr

/-- `defaultChain` is the newest default handler; null is `0`. -/
structure State where
  mem : ℕ → ℕ
  chain : ℕ → List Node
  free : ℕ
  defaultChain : ℕ

/-- The code is the structure's third word. -/
def codeOf (handler : ℕ) : ℕ := handler + 8

/-- A cause's entry in the dispatcher's table. -/
def tableEntry (cause : ℕ) : ℕ := kCauseTable + 4 * cause

/-- Where a cause's chain goes on behind its last handler; `last` is the stop. -/
def fallThrough (last : ℕ) (s : State) : ℕ :=
  if s.defaultChain ≠ 0 then codeOf s.defaultChain else codeOf last

/-- The first of some nodes, or where to go on. -/
def first (fall : ℕ) : List Node → ℕ
  | [] => fall
  | node :: _ => codeOf node.handler

/-- The inner loop of `rebuild`. -/
def linkNodes (fall : ℕ) : List Node → (ℕ → ℕ) → ℕ → ℕ
  | [], mem => mem
  | node :: rest, mem => linkNodes fall rest (Function.update mem node.handler (first fall rest))

/-- `rebuild`, for one cause. -/
def rebuildCause (fall : ℕ) (chain : ℕ → List Node) (mem : ℕ → ℕ) (cause : ℕ) : ℕ → ℕ :=
  linkNodes fall (chain cause)
    (Function.update mem (tableEntry cause) (first fall (chain cause)))

/-- `rebuild`: every cause's handlers are led through in the order of its chain. -/
def rebuild (last : ℕ) (s : State) : State :=
  { s with mem := (List.range kCauses).foldl (rebuildCause (fallThrough last s) s.chain) s.mem }

/-! ### Following the words -/

variable {last fall cause handler x : ℕ} {mem mem' : ℕ → ℕ} {nodes : List Node}
  {chain : ℕ → List Node} {defaults : List ℕ} {s : State}

/-- A handler's code goes on at what its `next` holds. -/
def follow (mem : ℕ → ℕ) (code : ℕ) : ℕ := mem (code - 8)

@[simp] theorem follow_codeOf : follow mem (codeOf handler) = mem handler := rfl

/-- From the word at `entry` on, the code of these handlers and then the stop. -/
def Visits (last : ℕ) (mem : ℕ → ℕ) (entry : ℕ) (handlers : List ℕ) : Prop :=
  Chain (codeOf last) (follow mem) entry (handlers.map codeOf)

/-- A walk depends on the link words of the handlers it visits and on no other. -/
theorem Visits.congr {entry : ℕ} {handlers : List ℕ} (h : Visits last mem entry handlers)
    (hmem : ∀ handler ∈ handlers, mem' handler = mem handler) :
    Visits last mem' entry handlers := by
  refine Chain.congr (fun code hcode => ?_) h
  obtain ⟨handler, hhandler, rfl⟩ := List.mem_map.mp hcode
  exact hmem handler hhandler

/-- Leading through the nodes changes the link words of their handlers only. -/
theorem linkNodes_of_not (hx : ∀ node ∈ nodes, node.handler ≠ x) :
    linkNodes fall nodes mem x = mem x := by
  induction nodes generalizing mem with
  | nil => rfl
  | cons node rest ih =>
    rw [linkNodes, ih fun n hn => hx n (List.mem_cons_of_mem _ hn)]
    exact Function.update_of_ne (hx node List.mem_cons_self).symm _ _

/-- What the loop writes does not depend on what was there. -/
theorem linkNodes_congr (hx : ∃ node ∈ nodes, node.handler = x) (m m' : ℕ → ℕ) :
    linkNodes fall nodes m x = linkNodes fall nodes m' x := by
  induction nodes generalizing m m' with
  | nil =>
    obtain ⟨node, hnode, -⟩ := hx
    exact absurd hnode List.not_mem_nil
  | cons node rest ih =>
    rw [linkNodes, linkNodes]
    by_cases hrest : ∃ n ∈ rest, n.handler = x
    · exact ih hrest _ _
    · have hnot : ∀ n ∈ rest, n.handler ≠ x := fun n hn heq => hrest ⟨n, hn, heq⟩
      obtain ⟨n, hn, rfl⟩ := hx
      obtain rfl : n = node := (List.mem_cons.mp hn).resolve_right fun hn => hnot n hn rfl
      rw [linkNodes_of_not hnot, linkNodes_of_not hnot, Function.update_self, Function.update_self]

/-- The loop's words lead through the nodes to where the chain goes on. -/
theorem visits_linkNodes (hnodup : (nodes.map Node.handler).Nodup)
    (hlast : ∀ node ∈ nodes, node.handler ≠ last)
    (hfall : Visits last (linkNodes fall nodes mem) fall defaults) :
    Visits last (linkNodes fall nodes mem) (first fall nodes)
      (nodes.map Node.handler ++ defaults) := by
  induction nodes generalizing mem with
  | nil => exact hfall
  | cons node rest ih =>
    obtain ⟨hnode, hrest⟩ := List.nodup_cons.mp hnodup
    have hnext : linkNodes fall (node :: rest) mem node.handler = first fall rest := by
      rw [linkNodes, linkNodes_of_not, Function.update_self]
      exact fun n hn heq => hnode (List.mem_map.mpr ⟨n, hn, heq⟩)
    refine ⟨rfl, fun heq => hlast node List.mem_cons_self (Nat.add_right_cancel heq), ?_⟩
    rw [follow_codeOf, hnext]
    exact ih hrest (fun n hn => hlast n (List.mem_cons_of_mem _ hn)) hfall

/-! ### All the causes -/

/-- The words that are written for a cause. -/
def Written (chain : ℕ → List Node) (cause x : ℕ) : Prop :=
  x = tableEntry cause ∨ ∃ node ∈ chain cause, node.handler = x

/-- Rebuilding a cause depends on, and changes, the words of its own chain only. -/
theorem rebuildCause_isLocal :
    Patch.IsLocal (rebuildCause fall chain) (Written chain) cause := by
  constructor
  · intro m x hx
    obtain ⟨hentry, hnodes⟩ := not_or.mp hx
    rw [rebuildCause, linkNodes_of_not fun node hnode heq => hnodes ⟨node, hnode, heq⟩]
    exact Function.update_of_ne hentry _ _
  · intro m m' hm x hx
    rw [rebuildCause, rebuildCause]
    by_cases hnodes : ∃ node ∈ chain cause, node.handler = x
    · exact linkNodes_congr hnodes _ _
    · have hnot : ∀ node ∈ chain cause, node.handler ≠ x := fun n hn heq => hnodes ⟨n, hn, heq⟩
      obtain rfl := hx.resolve_right hnodes
      rw [linkNodes_of_not hnot, linkNodes_of_not hnot, Function.update_self, Function.update_self]

/-- Where a handler may be: not the null pointer, the stop, or in the table. -/
structure IsPlace (last handler : ℕ) : Prop where
  ne_null : handler ≠ 0
  ne_last : handler ≠ last
  not_entry : ∀ cause < kCauses, handler ≠ tableEntry cause

/-- No handler is on two chains, or twice on one. -/
structure Apart (last : ℕ) (chain : ℕ → List Node) (defaults : List ℕ) : Prop where
  nodup : ∀ cause < kCauses, ((chain cause).map Node.handler).Nodup
  separate : ∀ c < kCauses, ∀ c' < kCauses, ∀ node ∈ chain c, ∀ node' ∈ chain c',
    node.handler = node'.handler → c = c'
  not_default : ∀ cause < kCauses, ∀ node ∈ chain cause, node.handler ∉ defaults
  place : ∀ cause < kCauses, ∀ node ∈ chain cause, IsPlace last node.handler
  place_default : ∀ handler ∈ defaults, IsPlace last handler

/-- The words that two causes' chains write are not the same. -/
theorem Apart.disjoint (h : Apart last chain defaults) : (List.range kCauses).Pairwise
    fun i j => ∀ x, Written chain i x → ¬Written chain j x := by
  refine (List.pairwise_lt_range (n := kCauses)).imp_of_mem fun {i j} hi hj hij x hx hx' => ?_
  have hi := List.mem_range.mp hi
  have hj := List.mem_range.mp hj
  rcases hx with rfl | ⟨node, hnode, rfl⟩
  · rcases hx' with heq | ⟨node, hnode, heq⟩
    · simp only [tableEntry] at heq
      omega
    · exact (h.place j hj node hnode).not_entry i hi heq
  · rcases hx' with heq | ⟨node', hnode', heq⟩
    · exact (h.place i hi node hnode).not_entry j hj heq
    · have := h.separate i hi j hj node hnode node' hnode' heq.symm
      omega

/-- Where no cause writes nothing changes. -/
theorem rebuild_of_not (hx : ∀ cause < kCauses, ¬Written s.chain cause x) :
    (rebuild last s).mem x = s.mem x :=
  Patch.foldl_of_not (fun _ _ => rebuildCause_isLocal) fun cause hcause =>
    hx cause (List.mem_range.mp hcause)

theorem rebuild_of_written (h : Apart last s.chain defaults) (hcause : cause < kCauses)
    (hx : Written s.chain cause x) : (rebuild last s).mem x =
      rebuildCause (fallThrough last s) s.chain s.mem cause x :=
  Patch.foldl_of_mem (fun _ _ => rebuildCause_isLocal) h.disjoint (List.mem_range.mpr hcause) hx

/-- A default handler's word is not written. -/
theorem rebuild_default (h : Apart last s.chain defaults) (hhandler : handler ∈ defaults) :
    (rebuild last s).mem handler = s.mem handler := by
  refine rebuild_of_not fun cause hcause hwritten => ?_
  rcases hwritten with heq | ⟨node, hnode, rfl⟩
  · exact (h.place_default handler hhandler).not_entry cause hcause heq
  · exact h.not_default cause hcause node hnode hhandler

/-- `rebuild` links the chains of all causes to the default chain. -/
theorem visits_rebuild (h : Apart last s.chain defaults)
    (hdefaults : Visits last s.mem (fallThrough last s) defaults) (hcause : cause < kCauses) :
    Visits last (rebuild last s).mem ((rebuild last s).mem (tableEntry cause))
      ((s.chain cause).map Node.handler ++ defaults) := by
  have hentry : (rebuild last s).mem (tableEntry cause) =
      first (fallThrough last s) (s.chain cause) := by
    rw [rebuild_of_written h hcause (.inl rfl), rebuildCause, linkNodes_of_not,
      Function.update_self]
    exact fun node hnode => (h.place cause hcause node hnode).not_entry cause hcause
  rw [hentry]
  -- the words of this cause are as its own turn of the loop left them
  have hturn : Visits last (rebuildCause (fallThrough last s) s.chain s.mem cause)
      (first (fallThrough last s) (s.chain cause))
      ((s.chain cause).map Node.handler ++ defaults) := by
    refine visits_linkNodes (h.nodup cause hcause)
      (fun node hnode => (h.place cause hcause node hnode).ne_last)
      (hdefaults.congr fun handler hhandler => ?_)
    rw [linkNodes_of_not]
    · exact Function.update_of_ne ((h.place_default handler hhandler).not_entry cause hcause) _ _
    · rintro node hnode rfl
      exact h.not_default cause hcause node hnode hhandler
  refine hturn.congr fun handler hhandler => ?_
  rcases List.mem_append.mp hhandler with hnode | hdefault
  · obtain ⟨node, hmem, rfl⟩ := List.mem_map.mp hnode
    exact rebuild_of_written h hcause (.inr ⟨node, hmem, rfl⟩)
  · rw [rebuild_default h hdefault]
    refine ((rebuildCause_isLocal).frame s.mem handler ?_).symm
    rintro (heq | ⟨node, hnode, rfl⟩)
    · exact (h.place_default handler hdefault).not_entry cause hcause heq
    · exact h.not_default cause hcause node hnode hdefault

end PS2Bios.Excepman
