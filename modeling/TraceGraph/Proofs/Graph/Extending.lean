import TraceGraph.Proofs.Pool.Revising

/-! # Extending

One extension from beginning to end: the own states are hidden, the rest of the trace interned, the
shared states copied and the own ones amended.  The root comes back, every live state is canonical
again, and the root reads the new trace and otherwise what it read before. -/
namespace TraceGraph
set_option autoImplicit false

variable {α : Type} [DecidableEq α]

namespace Pool

/-- The stages of an extension up to the first amendment.  The own states are hidden, which leaves
`canon`; the rest of the trace is interned up to `child`, and the shared states are copied up to
`top`. -/
structure Readied (pool : Pool α) (root : StateId) (arity : Nat) (input : List Nat)
    (output : List α) (own shared : List (Step α)) (canon : Canon α) (made copied : Pool α)
    (child top : StateId) (copies : List (StateId × StateId)) (added : List StateId) : Prop where
  hide : pool.hide (own.map Step.state) = .ok ⟨pool.store, canon⟩
  mem_canon : ∀ id, id ∈ canon.ids ↔ id ∉ own.map Step.state ∧ id ∈ pool.canon.ids
  hidden : Coherent ⟨pool.store, canon⟩ arity
  trace : internTrace ⟨pool.store, canon⟩ arity ((input.zip output).drop (own ++ shared).length) =
    .ok (made, child)
  made_coherent : made.Coherent arity
  grows : Grows ⟨pool.store, canon⟩ made
  child_mem : child ∈ made.canon.ids
  fed : made.store.Fed [root, child]
  reads : ∀ word, made.store.residual child word = overlay (fun _ => none)
    (input.drop (own ++ shared).length) (output.drop (own ++ shared).length) word
  adds : Adds ⟨pool.store, canon⟩ made child added
  few : added.length ≤ input.length - (own ++ shared).length + 1
  copy : made.copyAll child shared.reverse = .ok (copied, top, copyings copies)
  copied_all : Copied pool.store made copied arity root child top shared.reverse copies
  apart : ∀ step, shared.head? = some step → step.state ≠ top
  amending : Amending pool.store copied arity root top own.reverse none

section

variable (pool : Pool α) (root : StateId) (arity : Nat) (h : pool.Rooted root arity)
  (input : List Nat) (output : List α) (own shared : List (Step α))
  (hcourse : Course pool.store root input output (own ++ shared))
  (hone : ∀ step ∈ own, pool.store.inEdges step.state ≤ 1)

include h hcourse hone

/-- The last shared states can be copied, however many of them. -/
theorem copy_shared (canon : Canon α)
    (hcanon : ∀ id, id ∈ canon.ids ↔ id ∉ own.map Step.state ∧ id ∈ pool.canon.ids)
    (made : Pool α) (child : StateId) (hmade : made.Coherent arity)
    (hgrows : Grows ⟨pool.store, canon⟩ made) (hchild : child ∈ made.canon.ids)
    (hfed : made.store.Fed [root, child]) (steps : List (Step α))
    (hpre : steps <+: shared.reverse) :
    ∃ copied top copies, made.copyAll child steps = .ok (copied, top, copyings copies) ∧
      Copied pool.store made copied arity root child top steps copies := by
  have hmem : ∀ step ∈ steps, step ∈ shared := fun step hs =>
    List.mem_reverse.mp (hpre.subset hs)
  have hchain := List.isChain_append.mp (hcourse.isChain pool.store root input output _)
  refine made.copyAll_eq arity root child pool.store steps hmade hchild hfed
    (fun step hs => hcourse.fits pool.store root input output _ step
      (List.mem_append_right own (hmem step hs)))
    (fun step hs => hgrows.row?_eq _ made step.state ?_)
    (fun step hs target hleads => hgrows.canon target (pool.below_shared root arity h input output
      own shared hcourse hone canon hcanon step (hmem step hs) target hleads)) ?_
    fun step hs => ?_
  · exact h.coherent.filed.live step.state
      ((pool.canonical_of_course root arity h input output own shared hcourse).2 step
        (List.mem_append_right own (hmem step hs)))
  · obtain ⟨rest, hrest⟩ := hpre
    have hreverse := List.isChain_reverse.mpr hchain.2.1
    rw [← hrest] at hreverse
    exact (List.isChain_append.mp hreverse).1
  · obtain ⟨rest, hrest⟩ := hpre
    have hlast : shared.getLast? = some step := by
      rw [← List.head?_reverse, ← hrest, List.head?_append, hs]
      rfl
    rw [hcourse.target?_last pool.store root input output _ step
      (by rw [List.getLast?_append, hlast]; rfl)]
    exact (Option.some_ne_none child).symm

/-- An extension along a course gets as far as the first amendment. -/
theorem exists_readied (hlen : input.length = output.length)
    (hsym : ∀ symbol ∈ input, symbol < arity)
    (hstart : (own.map Step.state).head? = some root)
    (htwo : ∀ step, shared.head? = some step → 2 ≤ pool.store.inEdges step.state) :
    ∃ canon made copied child top copies added,
      pool.Readied root arity input output own shared canon made copied child top copies added := by
  have hlive : ∀ step ∈ own ++ shared, pool.store.Live step.state := fun step hs =>
    h.coherent.filed.live step.state
      ((pool.canonical_of_course root arity h input output own shared hcourse).2 step hs)
  obtain ⟨canon, hhide, hcanon, hhidden⟩ :=
    pool.hide_own root arity h input output own shared hcourse hone
  obtain ⟨made, child, htrace, hmade, hgrows, hchild, hfed, hres, added, hadds, hfew⟩ :=
    internTrace_eq ⟨pool.store, canon⟩ arity root hhidden h.fed
      ((input.zip output).drop (own ++ shared).length) fun entry hentry =>
        hsym entry.1 (List.of_mem_zip (List.mem_of_mem_drop hentry)).1
  obtain ⟨copied, top, copies, hcopy, hcopied⟩ := pool.copy_shared root arity h input output own
    shared hcourse hone canon hcanon made child hmade hgrows hchild hfed _ List.prefix_rfl
  have hgrown := hgrows.trans _ made copied hcopied.grows
  -- what was made from the first shared state is a copy of it
  have hapart : ∀ step, shared.head? = some step → step.state ≠ top :=
    Relaid.ne_first pool.store copied.store root input output own shared hcourse child top
      (hcopied.relaid copied (Keeps.refl copied)) fun step hs =>
        hgrown.row?_eq _ copied step.state (hlive step (List.mem_append_right own hs))
  have hamending := pool.amending_own root arity h input output own shared hcourse hone canon hcanon
    copied top hgrown hcopied.coherent hcopied.top_mem hcopied.fed hstart htwo hapart
  refine ⟨canon, made, copied, child, top, copies, added, hhide, hcanon, hhidden, htrace, hmade,
    hgrows, hchild, hfed, fun word => ?_, hadds, ?_, hcopy, hcopied, hapart, hamending⟩
  · rw [hres word, List.map_drop, List.map_drop, List.map_fst_zip (by omega),
      List.map_snd_zip (by omega)]
  · rw [List.length_drop, List.length_zip] at hfew
    omega

end

section

variable {pool : Pool α} {root : StateId} {arity : Nat} {input : List Nat} {output : List α}
  {own shared : List (Step α)} {canon : Canon α} {made copied : Pool α} {child top : StateId}
  {copies : List (StateId × StateId)} {added : List StateId}
  (hready : pool.Readied root arity input output own shared canon made copied child top copies
    added)

include hready

/-- What is canonical once the own states are hidden stays as it is while canonical states do. -/
theorem Readied.keeps (later : Pool α) (hlater : copied.Keeps later) :
    Keeps ⟨pool.store, canon⟩ later :=
  ((hready.grows.trans _ made copied hready.copied_all.grows).keeps _ copied
    hready.hidden.filed).trans _ copied later hlater

/-- Once a course has been led on from its end up to some own step, that step reads the rest of the
trace over what it read before. -/
theorem Readied.residual_eq_overlay (h : pool.Rooted root arity)
    (hcourse : Course pool.store root input output (own ++ shared))
    (hone : ∀ step ∈ own, pool.store.inEdges step.state ≤ 1) (hlen : input.length = output.length)
    (later : Pool α) (hlater : copied.Keeps later) (place : Nat) (start last : StateId)
    (lower : List (Step α)) (hlower : ∀ step ∈ lower, step ∈ own)
    (hplace : place + (lower ++ shared).length = (own ++ shared).length)
    (hpart : Course pool.store start (input.drop place) (output.drop place) (lower ++ shared))
    (hrelaid : Relaid pool.store later.store top lower.reverse last) (word : List Nat) :
    later.store.residual last word =
      overlay (pool.store.residual start) (input.drop place) (output.drop place) word := by
  have hkept := hready.keeps later hlater
  refine Relaid.residual_eq_overlay pool.store later.store start _ _ (lower ++ shared) hpart child
    last (by rw [List.length_drop, List.length_drop, hlen]) ?_ ?_ ?_ word
  · have hcopied := hready.copied_all.relaid later hlater
    rw [List.reverse_append]
    exact hcopied.append pool.store later.store child top last _ _ hrelaid
  · intro word
    have hkeep := (hready.copied_all.grows.keeps made copied hready.made_coherent.filed).trans made
      copied later hlater
    rw [hkeep.residual_eq made later hready.made_coherent.filed child hready.child_mem word,
      hready.reads word, List.drop_drop, List.drop_drop, hplace]
  · intro step hs symbol edge hedge hne word
    refine hkept.residual_eq _ later hready.hidden.filed edge.target ?_ word
    rcases List.mem_append.mp hs with hs | hs
    · exact pool.beside_hidden root arity h input output own shared hcourse hone canon
        hready.mem_canon step (hlower step hs) symbol edge hedge hne
    · exact pool.below_shared root arity h input output own shared hcourse hone canon
        hready.mem_canon step hs _ (pool.store.leads_of_edge? step.state symbol edge hedge)

end

/-- The four stages of an extension along a course that parts into `own` and `shared` steps. -/
theorem extend_stages (pool : Pool α) (root : StateId) (arity : Nat) (h : pool.Rooted root arity)
    (input : List Nat) (output : List α) (own shared : List (Step α))
    (hcourse : Course pool.store root input output (own ++ shared))
    (hone : ∀ step ∈ own, pool.store.inEdges step.state ≤ 1) (hlen : input.length = output.length)
    (hsym : ∀ symbol ∈ input, symbol < arity) (hstart : (own.map Step.state).head? = some root)
    (htwo : ∀ step, shared.head? = some step → 2 ≤ pool.store.inEdges step.state) :
    ∃ canon made copied after child top kept copies merged first added,
      pool.Readied root arity input output own shared canon made copied child top copies first ∧
      copied.amendAll top own.reverse = .ok (after, root, mergers merged) ∧
      after.Rooted root arity ∧
      Revised pool after own shared (input.length - (own ++ shared).length + 1) kept copies merged
        added ∧
      ∀ word, after.store.residual root word =
        overlay (pool.store.residual root) input output word := by
  obtain ⟨hnodup, hmem⟩ := pool.canonical_of_course root arity h input output own shared hcourse
  obtain ⟨canon, made, copied, child, top, copies, first, hready⟩ :=
    pool.exists_readied root arity h input output own shared hcourse hone hlen hsym hstart htwo
  obtain ⟨after, events, hamend, hrooted, hkeeps, hrelaid⟩ :=
    copied.amendAll_eq pool.store arity root top own.reverse none hready.amending
  obtain ⟨last, merged, below, kept, above, hamend', hown, hmerged, hturned, hlone⟩ :=
    copied.amendAll_turned pool.store arity root top own.reverse none hready.amending
      fun step hs => hcourse.target?_parted pool.store root input output own shared top hready.apart
        step (List.head?_reverse.symm.trans hs)
  cases hamend.symm.trans hamend'
  obtain ⟨added, hrevised⟩ := pool.revised_of_turned made copied after canon arity
    (input.length - (own ++ shared).length + 1) root child top own shared below above kept copies
    merged first (fun step hs => h.coherent.filed.live step.state
      (hmem step (List.mem_append_left shared hs)))
    (hnodup.sublist ((List.sublist_append_left own shared).map Step.state)) hready.grows hready.adds
    hready.few hready.copied_all hown hmerged hturned hlone
  refine ⟨canon, made, copied, after, child, top, kept, copies, merged, first, added, hready,
    hamend, hrooted, hrevised, fun word => ?_⟩
  exact hready.residual_eq_overlay h hcourse hone hlen after hkeeps 0 root root own (fun _ hs => hs)
    (Nat.zero_add _) hcourse hrelaid word

end Pool

namespace Graph

/-- Extending succeeds along any course, stage by stage.  It copies the states from the first shared
one on, and the root reads the trace over what it read before. -/
theorem extend_readied (graph : Graph α) (h : graph.pool.Rooted graph.root graph.arity)
    (path : List StateId) (input : List Nat) (output : List α) (steps : List (Step α))
    (hlen : input.length = output.length) (hsym : ∀ symbol ∈ input, symbol < graph.arity)
    (hsteps : Step.along (graph.root :: path) input output = steps)
    (hcourse : Course graph.pool.store graph.root input output steps)
    (hstates : steps.map Step.state = graph.root :: path) (own : Nat)
    (hown : (graph.root :: path).findIdx graph.pool.store.isShared = own) :
    ∃ canon made copied after child top kept copies merged first added,
      graph.pool.Readied graph.root graph.arity input output (steps.take own) (steps.drop own) canon
        made copied child top copies first ∧
      copied.amendAll top (steps.take own).reverse = .ok (after, graph.root, mergers merged) ∧
      graph.extend path input output = .ok ({ graph with pool := after },
        .inserting path.length own (input.length - path.length) ::
          copyings copies ++ mergers merged) ∧
      after.Rooted graph.root graph.arity ∧
      graph.pool.Revised after (steps.take own) (steps.drop own)
        (input.length - (path.length + 1) + 1) kept copies merged added ∧
      ∀ word, after.store.residual graph.root word =
        overlay (graph.pool.store.residual graph.root) input output word := by
  obtain ⟨hone, hstart, htwo⟩ := graph.pool.parting graph.root graph.arity h input output steps
    hcourse own (by rw [hstates, hown])
  obtain ⟨canon, made, copied, after, child, top, kept, copies, merged, first, added, hready,
    hamend, hrooted, hrevised, hres⟩ := graph.pool.extend_stages graph.root graph.arity h input
      output (steps.take own) (steps.drop own) (by rw [List.take_append_drop]; exact hcourse) hone
      hlen hsym hstart htwo
  have hhide := hready.hide
  have htrace := hready.trace
  rw [List.map_take, hstates] at hhide
  rw [List.take_append_drop, ← List.length_map Step.state, hstates] at htrace hrevised
  refine ⟨canon, made, copied, after, child, top, kept, copies, merged, first, added, hready,
    hamend, ?_, hrooted, hrevised, hres⟩
  simp only [extend, bind, Except.bind, hown, hsteps, hhide, htrace, hready.copy, hamend, if_true]
  rfl

theorem extend_eq (graph : Graph α) (h : graph.pool.Rooted graph.root graph.arity)
    (path : List StateId) (input : List Nat) (output : List α)
    (hlen : input.length = output.length) (hsym : ∀ symbol ∈ input, symbol < graph.arity)
    (hcourse : Course graph.pool.store graph.root input output
      (Step.along (graph.root :: path) input output))
    (hstates : (Step.along (graph.root :: path) input output).map Step.state =
      graph.root :: path) :
    ∃ after events, graph.extend path input output = .ok ({ graph with pool := after }, events) ∧
      after.Rooted graph.root graph.arity ∧ ∀ word, after.store.residual graph.root word =
        overlay (graph.pool.store.residual graph.root) input output word := by
  obtain ⟨_, _, _, after, _, _, _, _, _, _, _, _, _, hextend, hrooted, _, hres⟩ :=
    graph.extend_readied h path input output _ hlen hsym rfl hcourse hstates _ rfl
  exact ⟨after, _, hextend, hrooted, hres⟩

end Graph

end TraceGraph
