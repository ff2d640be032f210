import TraceGraph.Proofs.Relaid
import TraceGraph.Proofs.Pool.Interning

/-! # New ends and copies

The rest of a new trace is interned from its end, and the shared steps of its course are copied from
the last one up.  Both only intern rows, each of which leads to the state interned before; so the
pool grows, and the state interned last is the only one that may lack an incoming edge. -/
namespace TraceGraph
set_option autoImplicit false

/-- The report on states that were copied, each with its copy. -/
def copyings (copies : List (StateId × StateId)) : List Event :=
  copies.map fun entry => .copied entry.1 entry.2

namespace Store

variable {α : Type}

/-- Every live state but those spared has an incoming edge. -/
def Fed (store : Store α) (spared : List StateId) : Prop :=
  ∀ id, store.Live id → id ∈ spared ∨ 0 < store.inEdges id

end Store

namespace Pool

variable {α : Type}

/-- The canonical states of `pool` are canonical in `after`, with the same rows. -/
structure Keeps (pool after : Pool α) : Prop where
  canon : ∀ id ∈ pool.canon.ids, id ∈ after.canon.ids
  rows : ∀ id ∈ pool.canon.ids, after.store.row? id = pool.store.row? id

theorem Keeps.refl (pool : Pool α) : pool.Keeps pool where
  canon _ hid := hid
  rows _ _ := rfl

theorem Keeps.trans (pool mid after : Pool α) (h : pool.Keeps mid) (h' : mid.Keeps after) :
    pool.Keeps after where
  canon id hid := h'.canon id (h.canon id hid)
  rows id hid := (h'.rows id (h.canon id hid)).trans (h.rows id hid)

theorem Grows.keeps (pool after : Pool α) (h : pool.Grows after)
    (hfiled : pool.canon.Filed pool.store) : pool.Keeps after where
  canon := h.canon
  rows id hid := h.row?_eq pool after id (hfiled.live id hid)

theorem Keeps.residual_eq (pool after : Pool α) (h : pool.Keeps after)
    (hfiled : pool.canon.Filed pool.store) (id : StateId) (hid : id ∈ pool.canon.ids)
    (word : List Nat) : after.store.residual id word = pool.store.residual id word :=
  Store.residual_congr pool.store after.store (· ∈ pool.canon.ids) hfiled.closed
    (fun id hid symbol => by rw [Store.edge?, Store.edge?, h.rows id hid]) id hid word

/-- When a row is interned, the states it leads to need not be spared any more. -/
theorem Grows.fed (pool after : Pool α) (h : pool.Grows after) (root id : StateId) (row : Row α)
    (spared : List StateId) (hfed : pool.store.Fed spared)
    (hrow : after.store.row? id = some row)
    (hnew : ∀ other, after.store.Live other → pool.store.Live other ∨ other = id)
    (hspared : ∀ other ∈ spared, other = root ∨ other ∈ row.successors) :
    after.store.Fed [root, id] := by
  intro other hlive
  rcases hnew other hlive with hold | rfl
  · rcases hfed other hold with hmem | hpos
    · rcases hspared other hmem with rfl | hsucc
      · exact .inl List.mem_cons_self
      · exact .inr ((after.store.inEdges_pos_iff other).mpr ⟨id, row, hrow, hsucc⟩)
    · have := Store.inEdges_mono pool.store after.store h.rows other
      exact .inr (by omega)
  · exact .inl (List.mem_cons_of_mem root List.mem_cons_self)

/-- Unless a step led to `child` already, what is made from it is another state. -/
theorem copy_ne (store : Store α) (step : Step α) (child made : StateId) (row new : Row α)
    (displaced : Option StateId)
    (hedit : row.edit (step.edit child) = .ok (new, displaced))
    (hmade : store.row? made = some new) (hturn : step.target? store ≠ some child) :
    step.state ≠ made := by
  intro he
  obtain ⟨output, _, hedges⟩ := Row.edge?_edit row new _ displaced hedit
  have hedge := hedges step.symbol
  rw [Step.symbol_edit, if_pos rfl, Step.target_edit] at hedge
  refine hturn ?_
  rw [Step.target?, store.edge?_of_row? step.state new step.symbol (he ▸ hmade), hedge]
  rfl

variable [DecidableEq α]

/-! ## New ends -/

/-- Interning a trace gives a canonical state that reads the prefixes of the trace and nothing
else. -/
theorem internTrace_eq (pool : Pool α) (arity : Nat) (root : StateId) (h : pool.Coherent arity)
    (hfed : pool.store.Fed [root]) (trace : List (Nat × α))
    (hsym : ∀ entry ∈ trace, entry.1 < arity) :
    ∃ after child, pool.internTrace arity trace = .ok (after, child) ∧ after.Coherent arity ∧
      pool.Grows after ∧ child ∈ after.canon.ids ∧ after.store.Fed [root, child] ∧
      (∀ word, after.store.residual child word =
        overlay (fun _ => none) (trace.map Prod.fst) (trace.map Prod.snd) word) ∧
      ∃ added, Adds pool after child added ∧ added.length ≤ trace.length + 1 := by
  induction trace with
  | nil =>
    obtain ⟨after, child, hintern, hcoherent, hgrows, hmem, hrow, hnew⟩ :=
      pool.intern_eq arity (.blank arity) h rfl fun target hmem => absurd hmem List.not_mem_nil
    refine ⟨after, child, hintern, hcoherent, hgrows, hmem, ?_, fun word => ?_, ?_⟩
    · exact hgrows.fed pool after root child _ [root] hfed hrow hnew fun other hother =>
        .inl (List.mem_singleton.mp hother)
    · cases word with
      | nil => exact (overlay_nil_word _ _ _).symm
      | cons symbol word =>
        have hnone := after.store.edge?_of_row? child (.blank arity) symbol hrow
        rw [after.store.residual_of_no_edge child symbol word hnone, overlay, if_neg]
        intro hpre
        exact absurd (List.prefix_nil.mp hpre) (List.cons_ne_nil symbol word)
    · exact (Adds.refl pool child).next pool pool after child child [] _ h.settled hgrows hrow hnew
        (fun target hmem => absurd hmem List.not_mem_nil) fun hne => absurd rfl hne
  | cons entry trace ih =>
    obtain ⟨symbol, out⟩ := entry
    obtain ⟨mid, below, htrace, hmid, hgrow, hbelow, hfed', hres, added, hadds, hle⟩ :=
      ih fun entry hentry => hsym entry (List.mem_cons_of_mem _ hentry)
    obtain ⟨row, hedit⟩ := (Row.blank arity).edit_add symbol ⟨below, out⟩
      (hsym _ List.mem_cons_self) rfl
    have hsucc : ∀ target ∈ row.successors, target = below := by
      intro target hmem
      rcases Row.mem_successors_edit _ row _ none hedit target hmem with he | hmem
      · exact he
      · exact absurd hmem List.not_mem_nil
    obtain ⟨after, child, hintern, hcoherent, hgrows, hmem, hrow, hnew⟩ :=
      mid.intern_eq arity row hmid (Row.arity_edit _ row _ none hedit)
        fun target htarget => (hsucc target htarget) ▸ hbelow
    have htop := Row.target_mem_edit _ row _ none hedit
    refine ⟨after, child, ?_, hcoherent, hgrow.trans pool mid after hgrows, hmem, ?_,
      fun word => ?_, ?_⟩
    · rw [internTrace, htrace]
      simp only [bind, Except.bind, hedit]
      exact hintern
    · refine hgrows.fed mid after root child row [root, below] hfed' hrow hnew
        fun other hother => ?_
      rcases List.mem_cons.mp hother with rfl | hother
      · exact .inl rfl
      · rw [List.mem_singleton.mp hother]
        exact .inr htop
    · obtain ⟨found, hfound, hedges⟩ := Row.edge?_edit _ row _ none hedit
      obtain rfl : out = found := Option.some.inj hfound
      have hedge : ∀ other, after.store.edge? child other =
          if other = symbol then some ⟨below, out⟩ else none := fun other =>
        (after.store.edge?_of_row? child row other hrow).trans (hedges other)
      refine residual_eq_overlay_cons after.store child below symbol out (fun _ => none)
        (fun _ => none) _ _ ((hedge symbol).trans (if_pos rfl)) (fun word => ?_) (fun _ => rfl)
        (fun other word hs => ?_) word
      · have hkeeps := hgrows.keeps mid after hmid.filed
        rw [hkeeps.residual_eq mid after hmid.filed below hbelow, hres word]
      · exact after.store.residual_of_no_edge child other word ((hedge other).trans (if_neg hs))
    · obtain ⟨more, hmore, hlen⟩ := hadds.next pool mid after below child added row hmid.settled
        hgrows hrow hnew (fun target htarget => hsucc target htarget ▸ hmid.filed.live below hbelow)
        fun _ => htop
      refine ⟨more, hmore, ?_⟩
      rw [List.length_cons]
      omega

/-! ## Copies -/

/-- What the copying of the steps comes to: the steps are led on in `after`, up to `top`, by new
states or by ones that were there. -/
structure Copied (store : Store α) (pool after : Pool α) (arity : Nat) (root child top : StateId)
    (steps : List (Step α)) (copies : List (StateId × StateId)) : Prop where
  coherent : after.Coherent arity
  grows : pool.Grows after
  top_mem : top ∈ after.canon.ids
  fed : after.store.Fed [root, top]
  relaid : ∀ later, after.Keeps later → Relaid store later.store child steps top
  originals : copies.map Prod.fst = steps.map Step.state
  apart : ∀ entry ∈ copies, entry.1 ≠ entry.2
  adds : ∀ base added, Adds base pool child added →
    ∃ more, Adds base after top more ∧ more.length ≤ added.length + steps.length

theorem copy_eq (pool : Pool α) (arity : Nat) (step : Step α) (child : StateId)
    (h : pool.Coherent arity) (hfits : step.Fits pool.store) (hchild : child ∈ pool.canon.ids)
    (hbelow : ∀ target, pool.store.Leads step.state target → target ∈ pool.canon.ids) :
    ∃ after made row new, pool.copy step child = .ok (after, made) ∧
      pool.store.row? step.state = some row ∧
      row.edit (step.edit child) = .ok (new, step.target? pool.store) ∧
      after.Coherent arity ∧ pool.Grows after ∧ made ∈ after.canon.ids ∧
      after.store.row? made = some new ∧ child ∈ new.successors ∧
      (∀ target ∈ new.successors, target ∈ pool.canon.ids) ∧
      ∀ other, after.store.Live other → pool.store.Live other ∨ other = made := by
  obtain ⟨row, new, hrow, hedit⟩ := hfits.edit pool.store step child
  obtain ⟨state, hstate, rfl⟩ := pool.store.get?_of_row? step.state row hrow
  have harity : new.arity = arity :=
    (Row.arity_edit _ new _ _ hedit).trans (h.arities step.state _ hrow)
  have hmem := Row.target_mem_edit _ new _ _ hedit
  rw [Step.target_edit] at hmem
  have hsucc : ∀ target ∈ new.successors, target ∈ pool.canon.ids := by
    intro target hmem
    rcases Row.mem_successors_edit _ new _ _ hedit target hmem with he | hold
    · rw [he, Step.target_edit]
      exact hchild
    · exact hbelow target ⟨state.row, hrow, hold⟩
  obtain ⟨after, made, hintern, hcoherent, hgrows, hmade, hnew, honly⟩ :=
    pool.intern_eq arity new h harity hsucc
  refine ⟨after, made, state.row, new, ?_, hrow, hedit, hcoherent, hgrows, hmade, hnew, hmem, hsucc,
    honly⟩
  rw [copy, Store.fetch_eq pool.store step.state state hstate]
  simp only [bind, Except.bind, hedit]
  exact hintern

omit [DecidableEq α] in
/-- A step is copied, and then those above it. -/
theorem Copied.cons (store : Store α) (pool mid after : Pool α) (arity : Nat)
    (root child made top : StateId) (step : Step α) (steps : List (Step α))
    (copies : List (StateId × StateId)) (row new : Row α) (displaced : Option StateId)
    (hrow : store.row? step.state = some row)
    (hedit : row.edit (step.edit child) = .ok (new, displaced)) (hgrows : pool.Grows mid)
    (hmem : made ∈ mid.canon.ids) (hmade : mid.store.row? made = some new)
    (hne : step.state ≠ made)
    (hadds : ∀ base added, Adds base pool child added →
      ∃ more, Adds base mid made more ∧ more.length ≤ added.length + 1)
    (h : Copied store mid after arity root made top steps copies) :
    Copied store pool after arity root child top (step :: steps)
      ((step.state, made) :: copies) where
  coherent := h.coherent
  grows := hgrows.trans pool mid after h.grows
  top_mem := h.top_mem
  fed := h.fed
  relaid later hlater := by
    refine Relaid.lead child made top step steps row new displaced hrow hedit ?_
      (h.relaid later hlater)
    rw [hlater.rows made (h.grows.canon made hmem), h.grows.rows made new hmade]
  originals := by rw [List.map_cons, List.map_cons, h.originals]
  apart := List.forall_mem_cons.mpr ⟨hne, h.apart⟩
  adds base added hbase := by
    obtain ⟨more, hmore, hle⟩ := hadds base added hbase
    obtain ⟨last, hlast, hle'⟩ := h.adds base more hmore
    refine ⟨last, hlast, ?_⟩
    rw [List.length_cons]
    omega

/-- The steps of a course that lead to canonical states only can be copied one after the other.  The
copies are canonical, so the course stays led on for as long as canonical states keep their rows. -/
theorem copyAll_eq (pool : Pool α) (arity : Nat) (root child : StateId) (store : Store α)
    (steps : List (Step α)) (h : pool.Coherent arity) (hchild : child ∈ pool.canon.ids)
    (hfed : pool.store.Fed [root, child]) (hfits : ∀ step ∈ steps, step.Fits store)
    (hrow : ∀ step ∈ steps, pool.store.row? step.state = store.row? step.state)
    (hbelow : ∀ step ∈ steps, ∀ target, store.Leads step.state target →
      target ∈ pool.canon.ids) (hchain : steps.IsChain (Step.Above store))
    (hturn : ∀ step, steps.head? = some step → step.target? store ≠ some child) :
    ∃ after top copies, pool.copyAll child steps = .ok (after, top, copyings copies) ∧
      Copied store pool after arity root child top steps copies := by
  -- between two copies only the root and the last copy may lack an incoming edge
  induction steps generalizing pool child with
  | nil =>
    exact ⟨pool, child, [], rfl, h, Grows.refl pool, hchild, hfed, fun _ _ => Relaid.done child,
      rfl, fun entry hentry => absurd hentry List.not_mem_nil,
      fun base added hadds => ⟨added, hadds, Nat.le_refl _⟩⟩
  | cons step steps ih =>
    have hstep := hrow step List.mem_cons_self
    have hfits' : step.Fits pool.store := by
      obtain ⟨row, hr, hlt, hslot⟩ := hfits step List.mem_cons_self
      exact ⟨row, hstep.trans hr, hlt, hslot⟩
    obtain ⟨mid, made, row, new, hcopy, hr, hedit, hmid, hgrows, hmem, hmade, htarget, hsucc,
        hnew⟩ :=
      pool.copy_eq arity step child h hfits' hchild fun target hleads => by
        obtain ⟨row, hr, htarget⟩ := hleads
        exact hbelow step List.mem_cons_self target ⟨row, hstep.symm.trans hr, htarget⟩
    have hne : step.state ≠ made := by
      refine copy_ne mid.store step child made row new _ hedit hmade ?_
      rw [Step.target?_congr store mid.store step
        ((hgrows.rows _ row hr).trans (hstep.symm.trans hr).symm)]
      exact hturn step rfl
    have hfed' : mid.store.Fed [root, made] := by
      refine hgrows.fed pool mid root made new [root, child] hfed hmade hnew fun other hother => ?_
      rcases List.mem_cons.mp hother with rfl | hother
      · exact .inl rfl
      · rw [List.mem_singleton.mp hother]
        exact .inr htarget
    have hlive : ∀ step' ∈ step :: steps, pool.store.Live step'.state := by
      intro step' hmem'
      obtain ⟨row, hr, _⟩ := hfits step' hmem'
      exact ⟨row, (hrow step' hmem').trans hr⟩
    have hturn' : ∀ step', steps.head? = some step' → step'.target? store ≠ some made := by
      intro upper hupper
      obtain ⟨rest, rfl⟩ : ∃ rest, steps = upper :: rest := ⟨_, List.eq_cons_of_mem_head? hupper⟩
      rw [Step.Above.target?_eq store step upper (List.isChain_cons_cons.mp hchain).1]
      exact fun he => hne (Option.some.inj he)
    obtain ⟨after, top, copies, hall, hcopied⟩ :=
      ih mid made hmid hmem hfed' (fun step' hs => hfits step' (List.mem_cons_of_mem _ hs))
        (fun step' hs => (hgrows.row?_eq pool mid step'.state
          (hlive step' (List.mem_cons_of_mem _ hs))).trans (hrow step' (List.mem_cons_of_mem _ hs)))
        (fun step' hs target hl => hgrows.canon target
          (hbelow step' (List.mem_cons_of_mem _ hs) target hl)) hchain.tail hturn'
    refine ⟨after, top, (step.state, made) :: copies, ?_, Copied.cons store pool mid after arity root
      child made top step steps copies row new _ (hstep.symm.trans hr) hedit hgrows hmem hmade hne
      (fun base added hadds => ?_) hcopied⟩
    · rw [copyAll, hcopy]
      simp only [bind, Except.bind, hall]
      rfl
    · exact hadds.next base pool mid child made added new h.settled hgrows hmade hnew
        (fun target hmem => h.filed.live target (hsucc target hmem)) fun _ => htarget

end Pool

end TraceGraph
