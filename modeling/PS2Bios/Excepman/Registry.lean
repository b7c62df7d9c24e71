import PS2Bios.Excepman.Chains
import PS2Bios.Library.EveryStep

/-!
# Registering exception handlers

The five calls, over every sequence of them. Beside the state a `Registry` keeps what is
registered, handlers in the order they came and default handlers newest first: in every state the
words lead from each cause's entry through its handlers, those of higher priority first, then
through the default handlers to the stop (`Linked`).

`releaseDefault` looks at the newest default handler only, so it releases one exactly when it is
that (`released_iff`).
-/

namespace PS2Bios.Excepman

/-- The answer to a cause there is not. -/
def kErrorBadCause : ℤ := -0x32

/-- The answer to a handler whose link word is not nought. -/
def kErrorLinked : ℤ := -0x34

/-- The loop of `registerPriority`: behind the nodes of no lower priority. -/
def insertNode (node : Node) : List Node → List Node
  | [] => [node]
  | n :: rest => if n.priority ≥ node.priority then n :: insertNode node rest else node :: n :: rest

/-- The loop of `releaseHandler`: the first node of the handler's is taken out. -/
def takeOut (handler : ℕ) : List Node → Option (List Node)
  | [] => none
  | n :: rest => if n.handler = handler then some rest else (takeOut handler rest).map (n :: ·)

variable (last : ℕ)

/-- `RegisterPriorityExceptionHandler`: a node is taken and goes behind those that are not worse. -/
def registerPriority (cause priority handler : ℕ) (s : State) : ℤ × State :=
  if kCauses ≤ cause then (kErrorBadCause, s)
  else if s.mem handler ≠ 0 then (kErrorLinked, s)
  else if s.free = 0 then (-1, s)
  else
    (0, rebuild last { s with
      free := s.free - 1
      chain := Function.update s.chain cause
        (insertNode ⟨handler, priority &&& 3⟩ (s.chain cause)) })

/-- `RegisterExceptionHandler`: the same with the priority of most handlers. -/
def registerHandler (cause handler : ℕ) (s : State) : ℤ × State :=
  registerPriority last cause 2 handler s

/-- `RegisterDefaultExceptionHandler`: the handler goes in front of the defaults there are. -/
def registerDefault (handler : ℕ) (s : State) : ℤ × State :=
  if s.mem handler ≠ 0 then (kErrorLinked, s)
  else
    (0, rebuild last { s with
      mem := Function.update s.mem handler (fallThrough last s)
      defaultChain := handler })

/-- `ReleaseExceptionHandler`: the handler's node leaves its cause's chain. -/
def releaseHandler (cause handler : ℕ) (s : State) : ℤ × State :=
  if kCauses ≤ cause then (kErrorBadCause, s)
  else
    match takeOut handler (s.chain cause) with
    | none => (-1, s)
    | some rest =>
      (0, rebuild last { s with
        mem := Function.update s.mem handler 0
        chain := Function.update s.chain cause rest
        free := s.free + 1 })

/-- `ReleaseDefaultExceptionHandler`: the handler leaves the defaults, where it is the first of
them. -/
def releaseDefault (handler : ℕ) (s : State) : ℤ × State :=
  if s.defaultChain = handler then
    let following := s.mem handler
    (0, rebuild last { s with
      mem := Function.update s.mem handler 0
      defaultChain := if following = codeOf last then 0 else following - 8 })
  else (-1, s)

/-- As `_module_start` leaves it, in whatever memory. -/
def started (mem : ℕ → ℕ) : State :=
  rebuild last ⟨mem, fun _ => [], kNodes, 0⟩

/-- A call of one of the five ordinals. -/
inductive Call
  | registerPriority (cause priority handler : ℕ)
  | registerHandler (cause handler : ℕ)
  | registerDefault (handler : ℕ)
  | releaseHandler (cause handler : ℕ)
  | releaseDefault (handler : ℕ)
deriving DecidableEq, Repr

/-- The handler a call is about. -/
def Call.handler : Call → ℕ
  | .registerPriority _ _ handler => handler
  | .registerHandler _ handler => handler
  | .registerDefault handler => handler
  | .releaseHandler _ handler => handler
  | .releaseDefault handler => handler

/-- What a call answers, and what it leaves. -/
def Call.run : Call → State → ℤ × State
  | .registerPriority cause priority handler, s =>
    Excepman.registerPriority last cause priority handler s
  | .registerHandler cause handler, s => Excepman.registerHandler last cause handler s
  | .registerDefault handler, s => Excepman.registerDefault last handler s
  | .releaseHandler cause handler, s => Excepman.releaseHandler last cause handler s
  | .releaseDefault handler, s => Excepman.releaseDefault last handler s

/-! ### What is registered -/

/-- What a registration names. -/
structure Registration where
  cause : ℕ
  priority : ℕ
  handler : ℕ
deriving DecidableEq, Repr

/-- The node that keeps a registration. -/
def Registration.node (r : Registration) : Node := ⟨r.handler, r.priority⟩

/-- Handlers in the order they were registered, default handlers newest first. -/
structure Registry where
  handlers : List Registration
  defaults : List ℕ
deriving DecidableEq

/-- The handlers of a cause, in the order they were registered. -/
def Registry.of (R : Registry) (cause : ℕ) : List Node :=
  (R.handlers.filter fun r => r.cause = cause).map Registration.node

/-- The handlers that are registered, in one way or the other. -/
def Registry.all (R : Registry) : List ℕ := R.handlers.map Registration.handler ++ R.defaults

/-- What a call that succeeds registers or releases. -/
def Call.record : Call → Registry → Registry
  | .registerPriority cause priority handler, R =>
    { R with handlers := R.handlers ++ [⟨cause, priority &&& 3, handler⟩] }
  | .registerHandler cause handler, R =>
    { R with handlers := R.handlers ++ [⟨cause, 2, handler⟩] }
  | .registerDefault handler, R => { R with defaults := handler :: R.defaults }
  | .releaseHandler cause handler, R =>
    { R with handlers := R.handlers.filter fun r => ¬(r.cause = cause ∧ r.handler = handler) }
  | .releaseDefault handler, R => { R with defaults := R.defaults.erase handler }

/-- A state and what is registered in it. -/
abbrev Machine := State × Registry

/-- A call that is refused registers and releases nothing. -/
def Call.step (c : Call) (M : Machine) : Machine :=
  let r := c.run last M.1
  (r.2, if r.1 = 0 then c.record M.2 else M.2)

/-- Higher priorities come first. -/
def rank (node : Node) : ℕᵒᵈ := OrderDual.toDual node.priority

/-- The words of a state lead through what is registered. -/
structure Linked (s : State) (R : Registry) : Prop where
  /-- From a cause's entry through its handlers, by priority and then by the order they came in, and
  through the default handlers to the stop. -/
  visits : ∀ cause < kCauses, ∃ nodes, IsStableSort rank (R.of cause) nodes ∧
    Visits last s.mem (s.mem (tableEntry cause)) (nodes.map Node.handler ++ R.defaults)
  /-- No handler is registered twice. -/
  nodup : R.all.Nodup

/-! ### The invariant -/

/-- The lists, and the words of the default handlers, agree with what is registered: `rebuild` may
be called. -/
structure Ready (s : State) (R : Registry) : Prop where
  chain : ∀ cause < kCauses, IsStableSort rank (R.of cause) (s.chain cause)
  causes : ∀ r ∈ R.handlers, r.cause < kCauses
  defaults : Visits last s.mem (fallThrough last s) R.defaults
  defaultChain : s.defaultChain = R.defaults.headD 0
  nodup : R.all.Nodup
  place : ∀ handler ∈ R.all, IsPlace last handler

/-- All the words do. -/
structure Kept (s : State) (R : Registry) : Prop extends Ready last s R where
  visits : ∀ cause < kCauses, Visits last s.mem (s.mem (tableEntry cause))
    ((s.chain cause).map Node.handler ++ R.defaults)

variable {last} {s : State} {R : Registry} {cause priority handler : ℕ} {nodes : List Node}

/-- A node is inserted in front of the first one of a higher number. -/
theorem insertNode_eq (node : Node) (l : List Node) : insertNode node l = insertBy rank node l := by
  induction l with
  | nil => rfl
  | cons n rest ih =>
    rw [insertNode, insertBy, List.takeWhile_cons, List.dropWhile_cons]
    by_cases h : n.priority ≥ node.priority
    · have hrank : rank n ≤ rank node := h
      simp only [if_pos h, decide_eq_true hrank, if_true, List.cons_append]
      rw [ih, insertBy]
    · have hrank : ¬rank n ≤ rank node := h
      simp only [if_neg h, decide_eq_false hrank, Bool.false_eq_true, if_false, List.nil_append]

/-- A cause's nodes are the registrations of that cause. -/
theorem Registry.mem_of {node : Node} :
    node ∈ R.of cause ↔ ⟨cause, node.priority, node.handler⟩ ∈ R.handlers := by
  simp only [Registry.of, List.mem_map, List.mem_filter, decide_eq_true_eq]
  constructor
  · rintro ⟨r, ⟨hr, rfl⟩, rfl⟩
    exact hr
  · intro h
    exact ⟨_, ⟨h, rfl⟩, rfl⟩

theorem Ready.mem_chain (h : Ready last s R) (hcause : cause < kCauses) {node : Node} :
    node ∈ s.chain cause ↔ ⟨cause, node.priority, node.handler⟩ ∈ R.handlers := by
  rw [(h.chain cause hcause).mem_iff, Registry.mem_of]

/-- The one registration of a handler. -/
theorem Ready.registration_inj (h : Ready last s R) {r r' : Registration} (hr : r ∈ R.handlers)
    (hr' : r' ∈ R.handlers) (heq : r.handler = r'.handler) : r = r' :=
  List.inj_on_of_nodup_map (List.nodup_append.mp h.nodup).1 hr hr' heq

/-- The handlers of chains that are ready have nothing in common. -/
theorem Ready.apart (h : Ready last s R) : Apart last s.chain R.defaults := by
  have hmem : ∀ c < kCauses, ∀ node ∈ s.chain c,
      node.handler ∈ R.handlers.map Registration.handler :=
    fun c hc node hnode => List.mem_map.mpr ⟨_, (h.mem_chain hc).mp hnode, rfl⟩
  obtain ⟨hhandlers, -, hdisjoint⟩ := List.nodup_append.mp h.nodup
  constructor
  · intro c hc
    have hof : ((R.of c).map Node.handler).Nodup := by
      rw [Registry.of, List.map_map]
      exact hhandlers.sublist (List.filter_sublist.map _)
    exact ((h.chain c hc).perm.map Node.handler).nodup_iff.mpr hof
  · intro c hc c' hc' node hnode node' hnode' heq
    have hreg := h.registration_inj ((h.mem_chain hc).mp hnode) ((h.mem_chain hc').mp hnode') heq
    exact congrArg Registration.cause hreg
  · intro c hc node hnode hdefault
    exact hdisjoint _ (hmem c hc node hnode) _ hdefault rfl
  · exact fun c hc node hnode => h.place _ (List.mem_append_left _ (hmem c hc node hnode))
  · exact fun handler hhandler => h.place _ (List.mem_append_right _ hhandler)

/-- A rebuild leads every chain that is ready through its handlers. -/
theorem Ready.rebuild (h : Ready last s R) : Kept last (rebuild last s) R where
  chain := h.chain
  causes := h.causes
  defaults := h.defaults.congr fun _ hhandler => rebuild_default h.apart hhandler
  defaultChain := h.defaultChain
  nodup := h.nodup
  place := h.place
  visits _ hcause := visits_rebuild h.apart h.defaults hcause

theorem Kept.linked (h : Kept last s R) : Linked last s R :=
  ⟨fun cause hcause => ⟨_, h.chain cause hcause, h.visits cause hcause⟩, h.nodup⟩

/-- A word on a chain is some code, and so not zero. -/
theorem Visits.ne_zero {mem : ℕ → ℕ} {entry : ℕ} {handlers : List ℕ}
    (h : Visits last mem entry handlers) (hhandler : handler ∈ handlers) : mem handler ≠ 0 := by
  have hnext : follow mem (codeOf handler) = codeOf last ∨
      follow mem (codeOf handler) ∈ handlers.map codeOf :=
    Intrusive.Chain.next_mem h (List.mem_map_of_mem hhandler)
  rw [follow_codeOf] at hnext
  rcases hnext with heq | hmem
  · rw [heq]
    exact Nat.succ_ne_zero _
  · obtain ⟨handler', -, heq⟩ := List.mem_map.mp hmem
    rw [← heq]
    exact Nat.succ_ne_zero _

/-- A handler whose `next` is zero is not registered. -/
theorem Kept.not_mem (h : Kept last s R) (hzero : s.mem handler = 0) : handler ∉ R.all := by
  intro hmem
  rcases List.mem_append.mp hmem with hhandler | hdefault
  · obtain ⟨r, hr, rfl⟩ := List.mem_map.mp hhandler
    have hcause := h.causes r hr
    have hnode : r.node ∈ s.chain r.cause := (h.mem_chain hcause).mpr hr
    refine (h.visits r.cause hcause).ne_zero ?_ hzero
    exact List.mem_append_left _ (List.mem_map_of_mem hnode)
  · exact h.defaults.ne_zero hdefault hzero

/-! ### Registering -/

/-- A registration goes behind the others of its own cause. -/
theorem Registry.of_append {r : Registration} (c : ℕ) :
    (⟨R.handlers ++ [r], R.defaults⟩ : Registry).of c =
      if r.cause = c then R.of c ++ [r.node] else R.of c := by
  simp only [Registry.of, List.filter_append, List.map_append]
  by_cases hc : r.cause = c
  · rw [if_pos hc, List.filter_cons_of_pos (by simpa using hc), List.filter_nil, List.map_singleton]
  · rw [if_neg hc, List.filter_cons_of_neg (by simpa using hc), List.filter_nil, List.map_nil,
      List.append_nil]

/-- A handler is registered for a cause. -/
theorem Kept.register (h : Kept last s R) (hcause : cause < kCauses) (hzero : s.mem handler = 0)
    (hplace : IsPlace last handler) (free : ℕ) (priority : ℕ) :
    Kept last (Excepman.rebuild last { s with
        free := free
        chain := Function.update s.chain cause
          (insertNode ⟨handler, priority⟩ (s.chain cause)) })
      ⟨R.handlers ++ [⟨cause, priority, handler⟩], R.defaults⟩ := by
  have hnot := h.not_mem hzero
  have hall : (⟨R.handlers ++ [⟨cause, priority, handler⟩], R.defaults⟩ : Registry).all.Perm
      (handler :: R.all) := by
    rw [Registry.all, Registry.all, List.map_append, List.map_singleton, List.append_assoc]
    exact List.perm_middle
  refine Ready.rebuild ⟨fun c hc => ?_, fun r hr => ?_, h.defaults, h.defaultChain, ?_,
    fun x hx => ?_⟩
  · rw [Registry.of_append]
    by_cases heq : cause = c
    · subst heq
      rw [if_pos rfl]
      dsimp only
      rw [Function.update_self, insertNode_eq]
      exact (h.chain cause hc).insertBy _
    · rw [if_neg heq]
      dsimp only
      rw [Function.update_of_ne (Ne.symm heq)]
      exact h.chain c hc
  · rcases List.mem_append.mp hr with hr | hr
    · exact h.causes r hr
    · rw [List.mem_singleton.mp hr]
      exact hcause
  · exact hall.nodup_iff.mpr (List.nodup_cons.mpr ⟨hnot, h.nodup⟩)
  · rcases List.mem_cons.mp (hall.mem_iff.mp hx) with rfl | hx
    · exact hplace
    · exact h.place x hx

/-- A default handler is registered. -/
theorem Kept.registerDefault (h : Kept last s R) (hzero : s.mem handler = 0)
    (hplace : IsPlace last handler) :
    Kept last (Excepman.rebuild last { s with
        mem := Function.update s.mem handler (fallThrough last s)
        defaultChain := handler })
      ⟨R.handlers, handler :: R.defaults⟩ := by
  have hnot := h.not_mem hzero
  have hall : (⟨R.handlers, handler :: R.defaults⟩ : Registry).all.Perm (handler :: R.all) :=
    List.perm_middle
  refine Ready.rebuild ⟨h.chain, h.causes, ?_, rfl, ?_, fun x hx => ?_⟩
  · have hfall : fallThrough last { s with
        mem := Function.update s.mem handler (fallThrough last s)
        defaultChain := handler } = codeOf handler := if_pos hplace.ne_null
    rw [hfall]
    refine ⟨rfl, fun heq => hplace.ne_last (Nat.add_right_cancel heq), ?_⟩
    dsimp only
    rw [follow_codeOf, Function.update_self]
    refine h.defaults.congr fun x hx => Function.update_of_ne ?_ _ _
    rintro rfl
    exact hnot (List.mem_append_right _ hx)
  · exact hall.nodup_iff.mpr (List.nodup_cons.mpr ⟨hnot, h.nodup⟩)
  · rcases List.mem_cons.mp (hall.mem_iff.mp hx) with rfl | hx
    · exact hplace
    · exact h.place x hx

/-! ### Releasing -/

/-- A handler that is in a chain once is filtered out of it. -/
theorem takeOut_eq (hnodup : (nodes.map Node.handler).Nodup) : takeOut handler nodes =
    if handler ∈ nodes.map Node.handler then some (nodes.filter fun n => n.handler ≠ handler)
    else none := by
  induction nodes with
  | nil => rfl
  | cons n rest ih =>
    obtain ⟨hn, hrest⟩ := List.nodup_cons.mp hnodup
    rw [takeOut]
    by_cases heq : n.handler = handler
    · -- no node behind it is of the same handler
      have hall : rest.filter (fun m => m.handler ≠ handler) = rest := by
        refine List.filter_eq_self.mpr fun m hm => decide_eq_true ?_
        rintro rfl
        exact hn (heq ▸ List.mem_map_of_mem hm)
      rw [if_pos heq, if_pos (by simp [heq]), List.filter_cons_of_neg (by simpa using heq), hall]
    · rw [if_neg heq, ih hrest, List.filter_cons_of_pos (by simpa using heq), List.map_cons]
      by_cases hmem : handler ∈ rest.map Node.handler
      · rw [if_pos hmem, if_pos (List.mem_cons_of_mem _ hmem), Option.map_some]
      · rw [if_neg hmem, if_neg, Option.map_none]
        exact List.not_mem_cons_of_ne_of_not_mem (Ne.symm heq) hmem

/-- What is registered without one registration. -/
def Registry.without (R : Registry) (cause handler : ℕ) : Registry :=
  { R with handlers := R.handlers.filter fun r => ¬(r.cause = cause ∧ r.handler = handler) }

/-- A release takes the handler out of its own cause only. -/
theorem Registry.of_without (c : ℕ) : (R.without cause handler).of c =
    if c = cause then (R.of c).filter (fun n => n.handler ≠ handler) else R.of c := by
  simp only [Registry.of, Registry.without, List.filter_filter]
  by_cases hc : c = cause
  · subst hc
    rw [if_pos rfl, List.filter_map, List.filter_filter]
    refine congrArg _ (List.filter_congr fun r _ => ?_)
    rw [Bool.eq_iff_iff]
    simp only [Function.comp_apply, Bool.and_eq_true, decide_eq_true_eq]
    show r.cause = c ∧ ¬(r.cause = c ∧ r.handler = handler) ↔ r.handler ≠ handler ∧ r.cause = c
    tauto
  · rw [if_neg hc]
    refine congrArg _ (List.filter_congr fun r _ => ?_)
    by_cases hr : r.cause = c <;> simp [hr, hc]

theorem Registry.all_without_sublist : (R.without cause handler).all.Sublist R.all :=
  (List.filter_sublist.map _).append_right _

/-- A handler is released. -/
theorem Kept.release (h : Kept last s R) (hcause : cause < kCauses)
    (hhandler : handler ∈ (s.chain cause).map Node.handler) (free : ℕ) :
    Kept last (Excepman.rebuild last { s with
        mem := Function.update s.mem handler 0
        chain := Function.update s.chain cause
          ((s.chain cause).filter fun n => n.handler ≠ handler)
        free := free }) (R.without cause handler) := by
  obtain ⟨node, hnode, rfl⟩ := List.mem_map.mp hhandler
  have hnot := h.apart.not_default cause hcause node hnode
  refine Ready.rebuild ⟨fun c hc => ?_, fun r hr => h.causes r (List.mem_filter.mp hr).1, ?_,
    h.defaultChain, h.nodup.sublist Registry.all_without_sublist,
    fun x hx => h.place x (Registry.all_without_sublist.subset hx)⟩
  · rw [Registry.of_without]
    by_cases heq : c = cause
    · subst heq
      rw [if_pos rfl]
      dsimp only
      rw [Function.update_self]
      exact (h.chain c hc).filter _
    · rw [if_neg heq]
      dsimp only
      rw [Function.update_of_ne heq]
      exact h.chain c hc
  · refine h.defaults.congr fun x hx => Function.update_of_ne ?_ _ _
    rintro rfl
    exact hnot hx

/-- The newest default handler is released. -/
theorem Kept.releaseDefault (h : Kept last s R) {rest : List ℕ}
    (hdefaults : R.defaults = handler :: rest) :
    Kept last (Excepman.rebuild last { s with
        mem := Function.update s.mem handler 0
        defaultChain := if s.mem handler = codeOf last then 0 else s.mem handler - 8 })
      ⟨R.handlers, rest⟩ := by
  have hall : R.all.Perm (handler :: (⟨R.handlers, rest⟩ : Registry).all) := by
    rw [Registry.all, hdefaults]
    exact List.perm_middle
  obtain ⟨hnot, hnodup⟩ := List.nodup_cons.mp (hall.nodup_iff.mp h.nodup)
  have hvisits := h.defaults
  rw [hdefaults] at hvisits
  obtain ⟨-, -, hrest⟩ := hvisits
  rw [follow_codeOf] at hrest
  have hhead : (if s.mem handler = codeOf last then 0 else s.mem handler - 8) = rest.headD 0 := by
    cases rest with
    | nil => exact if_pos hrest
    | cons d ds =>
      obtain ⟨hd, hne, -⟩ := hrest
      rw [hd, if_neg hne]
      rfl
  have hplace : ∀ x ∈ (⟨R.handlers, rest⟩ : Registry).all, IsPlace last x :=
    fun x hx => h.place x (hall.mem_iff.mpr (List.mem_cons_of_mem _ hx))
  refine Ready.rebuild ⟨h.chain, h.causes, ?_, hhead, hnodup, hplace⟩
  have hfall : fallThrough last { s with
      mem := Function.update s.mem handler 0
      defaultChain := if s.mem handler = codeOf last then 0 else s.mem handler - 8 } =
      s.mem handler := by
    rw [fallThrough]
    dsimp only
    rw [hhead]
    cases rest with
    | nil => exact (if_neg (by simp)).trans (Eq.symm hrest)
    | cons d ds =>
      have hd := hplace d (List.mem_append_right _ List.mem_cons_self)
      rw [List.headD_cons, if_pos hd.ne_null]
      exact hrest.1.symm
  rw [hfall]
  refine Visits.congr hrest fun x hx => Function.update_of_ne ?_ _ _
  rintro rfl
  exact hnot (List.mem_append_right _ hx)

/-! ### Every sequence of calls -/

/-- What a call does right: it releases what is registered, changes no word when it is refused, and
leaves the words leading through what is then registered. -/
structure Call.Right (last : ℕ) (c : Call) (M : Machine) : Prop where
  releases : ∀ cause handler priority, c = .releaseHandler cause handler →
    ⟨cause, priority, handler⟩ ∈ M.2.handlers → (c.run last M.1).1 = 0
  releasesDefault : ∀ handler, c = .releaseDefault handler → handler ∈ M.2.defaults →
    (c.run last M.1).1 = 0
  refused : (c.run last M.1).1 ≠ 0 → (c.run last M.1).2.mem = M.1.mem
  linked : Linked last (c.step last M).1 (c.step last M).2

/-- A default handler that is released is the newest. -/
def Call.Newest (c : Call) (M : Machine) : Prop :=
  ∀ handler, c = .releaseDefault handler → handler ∈ M.2.defaults →
    M.2.defaults.head? = some handler

variable {c : Call} {M : Machine}

theorem step_of_accepted {s' : State} (h : c.run last M.1 = (0, s')) :
    c.step last M = (s', c.record M.2) := by
  rw [Call.step, h]
  exact congrArg (Prod.mk s') (if_pos rfl)

/-- What a call does: it is refused and changes nothing, or what it registers or releases is. -/
def Call.Done (last : ℕ) (c : Call) (M : Machine) : Prop :=
  ((c.run last M.1).1 ≠ 0 ∧ (c.run last M.1).2 = M.1) ∨
    (c.run last M.1).1 = 0 ∧ Kept last (c.run last M.1).2 (c.record M.2)

/-- A registration does what it should to a registry that is kept. -/
theorem Kept.registerPriority_done (h : Kept last M.1 M.2) (hplace : IsPlace last handler)
    (cause priority : ℕ) : (Call.registerPriority cause priority handler).Done last M := by
  rw [Call.Done, Call.run, Excepman.registerPriority]
  split
  · exact Or.inl ⟨(by decide : kErrorBadCause ≠ 0), rfl⟩
  rename_i hcause
  split
  · exact Or.inl ⟨(by decide : kErrorLinked ≠ 0), rfl⟩
  rename_i hzero
  split
  · exact Or.inl ⟨(by decide : (-1 : ℤ) ≠ 0), rfl⟩
  exact Or.inr ⟨rfl, h.register (Nat.lt_of_not_le hcause) (not_not.mp hzero) hplace _ _⟩

/-- A registration of a default does what it should to a registry that is kept. -/
theorem Kept.registerDefault_done (h : Kept last M.1 M.2) (hplace : IsPlace last handler) :
    (Call.registerDefault handler).Done last M := by
  rw [Call.Done, Call.run, Excepman.registerDefault]
  split
  · exact Or.inl ⟨(by decide : kErrorLinked ≠ 0), rfl⟩
  rename_i hzero
  exact Or.inr ⟨rfl, h.registerDefault (not_not.mp hzero) hplace⟩

/-- A handler's release succeeds when it is registered for the cause. -/
theorem Kept.releaseHandler_done (h : Kept last M.1 M.2) (cause handler : ℕ) :
    (Call.releaseHandler cause handler).Done last M ∧
      ((∃ priority, ⟨cause, priority, handler⟩ ∈ M.2.handlers) →
        ((Call.releaseHandler cause handler).run last M.1).1 = 0) := by
  rw [Call.Done, Call.run, Excepman.releaseHandler]
  split
  · rename_i hcause
    refine ⟨Or.inl ⟨(by decide : kErrorBadCause ≠ 0), rfl⟩, ?_⟩
    rintro ⟨priority, hr⟩
    exact absurd (h.causes _ hr) (Nat.not_lt.mpr hcause)
  rename_i hcause
  have hcause := Nat.lt_of_not_le hcause
  rw [takeOut_eq (h.apart.nodup cause hcause)]
  by_cases hmem : handler ∈ (M.1.chain cause).map Node.handler
  · rw [if_pos hmem]
    exact ⟨Or.inr ⟨rfl, h.release hcause hmem _⟩, fun _ => rfl⟩
  · rw [if_neg hmem]
    refine ⟨Or.inl ⟨(by decide : (-1 : ℤ) ≠ 0), rfl⟩, ?_⟩
    rintro ⟨priority, hr⟩
    have hnode : ⟨handler, priority⟩ ∈ M.1.chain cause := (h.mem_chain hcause).mpr hr
    exact absurd (List.mem_map_of_mem hnode) hmem

/-- A default handler's release succeeds exactly when it is the newest. -/
theorem Kept.releaseDefault_done (h : Kept last M.1 M.2) (hplace : IsPlace last handler) :
    (Call.releaseDefault handler).Done last M ∧
      (((Call.releaseDefault handler).run last M.1).1 = 0 ↔
        M.2.defaults.head? = some handler) := by
  rw [Call.Done, Call.run, Excepman.releaseDefault, h.defaultChain]
  cases hdefaults : M.2.defaults with
  | nil =>
    rw [List.headD_nil, if_neg hplace.ne_null.symm]
    exact ⟨Or.inl ⟨(by decide : (-1 : ℤ) ≠ 0), rfl⟩, by simp⟩
  | cons d ds =>
    rw [List.headD_cons, List.head?_cons]
    by_cases heq : d = handler
    · subst heq
      rw [if_pos rfl]
      refine ⟨Or.inr ⟨rfl, ?_⟩, by simp⟩
      have hrecord : (Call.releaseDefault d).record M.2 = ⟨M.2.handlers, ds⟩ := by
        rw [Call.record, hdefaults, List.erase_cons_head]
      rw [hrecord]
      exact h.releaseDefault hdefaults
    · rw [if_neg heq]
      exact ⟨Or.inl ⟨(by decide : (-1 : ℤ) ≠ 0), rfl⟩, by simp [heq]⟩

/-- Each call does what it should to a registry that is kept. -/
theorem Kept.done (h : Kept last M.1 M.2) (hplace : IsPlace last c.handler) : c.Done last M := by
  cases c with
  | registerPriority cause priority handler => exact h.registerPriority_done hplace cause priority
  | registerHandler cause handler => exact h.registerPriority_done hplace cause 2
  | registerDefault handler => exact h.registerDefault_done hplace
  | releaseHandler cause handler => exact (h.releaseHandler_done cause handler).1
  | releaseDefault handler => exact (h.releaseDefault_done hplace).1

/-- A call that does what it should keeps the registry. -/
theorem Call.Done.kept (hc : c.Done last M) (h : Kept last M.1 M.2) :
    Kept last (c.step last M).1 (c.step last M).2 := by
  rcases hc with ⟨hne, hsame⟩ | ⟨hzero, hkept⟩
  · have hstep : c.step last M = M := by
      rw [Call.step, hsame]
      exact congrArg (Prod.mk M.1) (if_neg hne)
    rw [hstep]
    exact h
  · rw [step_of_accepted (Prod.ext hzero rfl)]
    exact hkept

/-- A call does right exactly when a default handler it releases is the newest. -/
theorem Kept.right_iff (h : Kept last M.1 M.2) (hplace : IsPlace last c.handler) :
    c.Right last M ↔ c.Newest M := by
  have hdone := h.done hplace
  constructor
  · rintro hright handler rfl hmem
    exact (h.releaseDefault_done hplace).2.mp (hright.releasesDefault handler rfl hmem)
  · intro hnewest
    refine ⟨?_, ?_, fun hne => ?_, (hdone.kept h).linked⟩
    · rintro cause handler priority rfl hmem
      exact (h.releaseHandler_done cause handler).2 ⟨priority, hmem⟩
    · rintro handler rfl hmem
      exact (h.releaseDefault_done hplace).2.mpr (hnewest handler rfl hmem)
    · rcases hdone with ⟨-, hsame⟩ | ⟨hzero, -⟩
      · rw [hsame]
      · exact absurd hzero hne

theorem kept_started (mem : ℕ → ℕ) : Kept last (started last mem) ⟨[], []⟩ := by
  refine Ready.rebuild ⟨fun _ _ => IsStableSort.nil, nofun, ?_, rfl, List.nodup_nil, nofun⟩
  exact if_neg (by simp)

/-- The state after a sequence of calls. -/
def runCalls (last : ℕ) (calls : List Call) (M : Machine) : Machine :=
  calls.foldl (fun M c => c.step last M) M

/-- Over every sequence of calls, in whatever memory, each call does right if and only if each
default handler that is released is the newest; and the words lead through what is registered in
any case. -/
theorem chains_right_iff {calls : List Call} (hplace : ∀ c ∈ calls, IsPlace last c.handler)
    (mem : ℕ → ℕ) :
    (EveryStep (Call.step last) (Call.Right last) calls (started last mem, ⟨[], []⟩) ↔
      EveryStep (Call.step last) Call.Newest calls (started last mem, ⟨[], []⟩)) ∧
    Linked last (runCalls last calls (started last mem, ⟨[], []⟩)).1
      (runCalls last calls (started last mem, ⟨[], []⟩)).2 := by
  have hrun : ∀ M : Machine, Kept last M.1 M.2 →
      EveryStep (Call.step last) (fun c M => Kept last M.1 M.2 ∧ IsPlace last c.handler) calls M ∧
      Kept last (runCalls last calls M).1 (runCalls last calls M).2 := by
    induction calls with
    | nil => exact fun M h => ⟨trivial, h⟩
    | cons c calls ih =>
      intro M h
      have hc := hplace c List.mem_cons_self
      obtain ⟨hevery, hkept⟩ := ih (fun c' hc' => hplace c' (List.mem_cons_of_mem _ hc')) _
        ((h.done hc).kept h)
      exact ⟨⟨⟨h, hc⟩, hevery⟩, hkept⟩
  obtain ⟨hevery, hkept⟩ := hrun (started last mem, ⟨[], []⟩) (kept_started mem)
  exact ⟨everyStep_iff (fun c M hM => hM.1.right_iff hM.2) hevery, hkept.linked⟩

/-! ### Two default handlers -/

/-- A default handler that is not the newest is released. -/
def olderReleased : List Call :=
  [.registerDefault 0x1000, .registerDefault 0x1800, .releaseDefault 0x1000]

/-- A handler behind the vectors. -/
theorem isPlace_of_le {handler : ℕ} (hle : 0x800 ≤ handler) (hne : handler ≠ 0x2000) :
    IsPlace 0x2000 handler :=
  ⟨by omega, hne, fun cause hcause => by
    simp only [tableEntry, kCauseTable, kCauses] at hcause ⊢
    omega⟩

theorem place_olderReleased : ∀ c ∈ olderReleased, IsPlace 0x2000 c.handler := by
  have hall : ∀ c ∈ olderReleased, 0x800 ≤ c.handler ∧ c.handler ≠ 0x2000 := by
    decide
  exact fun c hc => isPlace_of_le (hall c hc).1 (hall c hc).2

/-- It stays registered. -/
theorem older_not_released : ¬EveryStep (Call.step 0x2000) (Call.Right 0x2000) olderReleased
    (started 0x2000 fun _ => 0, ⟨[], []⟩) := by
  intro hright
  have hnewest := (chains_right_iff place_olderReleased _).1.mp hright
  have hdefaults : (runCalls 0x2000 [.registerDefault 0x1000, .registerDefault 0x1800]
      (started 0x2000 fun _ => 0, ⟨[], []⟩)).2.defaults = [0x1800, 0x1000] := by decide +kernel
  have hhead := hnewest.2.2.1 0x1000 rfl (hdefaults ▸ by decide)
  exact absurd (hdefaults ▸ hhead) (by decide)

/-- Two priorities on one cause, the higher one twice, and a default handler; the first of them goes
again. -/
def tied : List Call :=
  [.registerHandler 8 0x1000, .registerPriority 8 3 0x1100, .registerDefault 0x1800,
    .registerPriority 8 3 0x1200, .releaseHandler 8 0x1100, .releaseDefault 0x1800,
    .registerDefault 0x1900]

/-- Each call does right, and the words lead through the two that stay, the higher one first, and
through the default handler. -/
theorem chains_right_iff_tied :
    EveryStep (Call.step 0x2000) (Call.Right 0x2000) tied (started 0x2000 fun _ => 0, ⟨[], []⟩) ∧
      Linked 0x2000 (runCalls 0x2000 tied (started 0x2000 fun _ => 0, ⟨[], []⟩)).1
        ⟨[⟨8, 2, 0x1000⟩, ⟨8, 3, 0x1200⟩], [0x1900]⟩ := by
  have hall : ∀ c ∈ tied, 0x800 ≤ c.handler ∧ c.handler ≠ 0x2000 := by
    decide
  have hplace : ∀ c ∈ tied, IsPlace 0x2000 c.handler :=
    fun c hc => isPlace_of_le (hall c hc).1 (hall c hc).2
  obtain ⟨hiff, hlinked⟩ := chains_right_iff hplace fun _ => 0
  have hregistry : (runCalls 0x2000 tied (started 0x2000 fun _ => 0, ⟨[], []⟩)).2 =
      ⟨[⟨8, 2, 0x1000⟩, ⟨8, 3, 0x1200⟩], [0x1900]⟩ := by
    decide +kernel
  have hdefaults :
      (runCalls 0x2000 (tied.take 5) (started 0x2000 fun _ => 0, ⟨[], []⟩)).2.defaults =
        [0x1800] := by
    decide +kernel
  refine ⟨hiff.mpr ?_, hregistry ▸ hlinked⟩
  have hother : ∀ (c : Call) (M : Machine), (∀ handler, c ≠ .releaseDefault handler) → c.Newest M :=
    fun c M hc handler h => absurd h (hc handler)
  refine ⟨hother _ _ (by simp), hother _ _ (by simp), hother _ _ (by simp), hother _ _ (by simp),
    hother _ _ (by simp), ?_, hother _ _ (by simp), trivial⟩
  intro handler h _
  obtain rfl := Call.releaseDefault.inj h
  exact congrArg List.head? hdefaults

end PS2Bios.Excepman
