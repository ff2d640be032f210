import TraceGraph.Proofs.Graph.Canonicity
import TraceGraph.Proofs.Graph.Histories

/-! # Building from traces

A graph is built from a list of traces by inserting one after the other, and each insertion compares
its trace with the graph so far.  That decides as if the trace were compared with every earlier one:
what the graph reads are the beginnings of these, so it disagrees with the trace at the first place
where one of them does.  The list is thus accepted or refused by what it says pair by pair, and the
graph depends on its members only. -/
namespace TraceGraph
set_option autoImplicit false

/-- A trace has one output for each input, and its inputs are in the alphabet. -/
def Fitting {α : Type} (arity : Nat) (trace : List Nat × List α) : Prop :=
  trace.1.length = trace.2.length ∧ ∀ symbol ∈ trace.1, symbol < arity

/-- Two traces share the beginning of their inputs up to and with `place`, and there their outputs,
`known` and `given`, differ. -/
structure Contradicts {α : Type} (one other : List Nat × List α) (place : Nat) (known given : α) :
    Prop where
  shared : ∃ beginning : List Nat, beginning.length = place + 1 ∧
    beginning <+: one.1 ∧ beginning <+: other.1
  known_eq : one.2[place]? = some known
  given_eq : other.2[place]? = some given
  ne : known ≠ given

structure Consistent {α : Type} (arity : Nat) (traces : List (List Nat × List α)) : Prop where
  fitting : ∀ trace ∈ traces, Fitting arity trace
  agree : ∀ one ∈ traces, ∀ other ∈ traces, ∀ place known given,
    ¬ Contradicts one other place known given

/-- Why `trace` is refused after the traces `earlier`: it does not fit, or else one of these
contradicts it, and none does so at an earlier place. -/
inductive Refused {α : Type} (arity : Nat) (earlier : List (List Nat × List α))
    (trace : List Nat × List α) : Failure α → Prop
  | uneven (hlen : trace.1.length ≠ trace.2.length) :
    Refused arity earlier trace (.refused (.lengthMismatch trace.1.length trace.2.length))
  | outside (hlen : trace.1.length = trace.2.length) (inside rest : List Nat) (symbol : Nat)
      (hinput : trace.1 = inside ++ symbol :: rest) (hinside : ∀ other ∈ inside, other < arity)
      (hsymbol : arity ≤ symbol) :
    Refused arity earlier trace (.refused (.outOfRange symbol arity))
  | conflict (hfit : Fitting arity trace) (one : List Nat × List α) (hone : one ∈ earlier)
      (place : Nat) (known given : α) (hcontra : Contradicts one trace place known given)
      (hleast : ∀ before < place, ∀ other ∈ earlier, ∀ known given,
        ¬ Contradicts other trace before known given) :
    Refused arity earlier trace (.refused (.conflict place known given))

variable {α : Type}

/-! ## Pairs of traces -/

theorem Contradicts.symm (one other : List Nat × List α) (place : Nat) (known given : α)
    (h : Contradicts one other place known given) : Contradicts other one place given known := by
  obtain ⟨beginning, hlen, hone, hother⟩ := h.shared
  exact ⟨⟨beginning, hlen, hother, hone⟩, h.given_eq, h.known_eq, h.ne.symm⟩

theorem consistent_concat (arity : Nat) (earlier : List (List Nat × List α))
    (trace : List Nat × List α) (h : Consistent arity earlier) (hfit : Fitting arity trace)
    (hagree : ∀ one ∈ earlier, ∀ place known given, ¬ Contradicts one trace place known given) :
    Consistent arity (earlier ++ [trace]) where
  fitting found hfound := by
    rcases List.mem_append.mp hfound with hold | hnew
    · exact h.fitting found hold
    · exact List.mem_singleton.mp hnew ▸ hfit
  agree one hone other hother place known given hcontra := by
    rcases List.mem_append.mp hone with hold | hnew <;>
      rcases List.mem_append.mp hother with hold' | hnew'
    · exact h.agree one hold other hold' place known given hcontra
    · exact hagree one hold place known given (List.mem_singleton.mp hnew' ▸ hcontra)
    · exact hagree other hold' place given known (List.mem_singleton.mp hnew ▸ hcontra).symm
    · obtain rfl := (List.mem_singleton.mp hnew).trans (List.mem_singleton.mp hnew').symm
      exact hcontra.ne (Option.some.inj (hcontra.known_eq.symm.trans hcontra.given_eq))

theorem Consistent.of_subset (arity : Nat) (traces others : List (List Nat × List α))
    (h : Consistent arity traces) (hsub : ∀ trace ∈ others, trace ∈ traces) :
    Consistent arity others where
  fitting trace htrace := h.fitting trace (hsub trace htrace)
  agree one hone other hother := h.agree one (hsub one hone) other (hsub other hother)

theorem Refused.not_consistent (arity : Nat) (earlier : List (List Nat × List α))
    (trace : List Nat × List α) (failure : Failure α) (h : Refused arity earlier trace failure) :
    ¬ Consistent arity (earlier ++ [trace]) := by
  intro hcons
  have htrace : trace ∈ earlier ++ [trace] := List.mem_append_right _ List.mem_cons_self
  obtain ⟨hlen, hsym⟩ := hcons.fitting trace htrace
  cases h with
  | uneven hne => exact hne hlen
  | outside _ inside rest symbol hinput _ hsymbol =>
    have := hsym symbol (hinput ▸ List.mem_append_right _ List.mem_cons_self)
    omega
  | conflict _ one hone place known given hcontra _ =>
    exact hcons.agree one (List.mem_append_left _ hone) trace htrace place known given hcontra

namespace Graph

/-! ## One trace -/

/-- The graph reads the beginnings of the traces, each with its outputs, and nothing else. -/
def Records (graph : Graph α) (traces : List (List Nat × List α)) : Prop :=
  ∀ word outputs, graph.reading word = some outputs ↔ (word = [] ∧ outputs = []) ∨
    ∃ trace ∈ traces, word <+: trace.1 ∧ outputs = trace.2.take word.length

section

variable (graph : Graph α) (earlier : List (List Nat × List α)) (hrecords : graph.Records earlier)
  (input : List Nat) (recorded : List α)
  (hlongest : graph.pool.store.Longest graph.root input recorded)

include hrecords hlongest

/-- An output stands in the longest recorded beginning of a word exactly if an earlier trace has it
there and shares the word so far. -/
theorem recorded_at_iff (place : Nat) (known : α) : recorded[place]? = some known ↔
    ∃ one ∈ earlier, one.2[place]? = some known ∧ ∃ beginning : List Nat,
      beginning.length = place + 1 ∧ beginning <+: one.1 ∧ beginning <+: input := by
  have hbegin : ∀ beginning : List Nat, beginning <+: input → beginning.length ≤ recorded.length →
      graph.reading beginning = some (recorded.take beginning.length) := fun beginning hpre hle =>
    graph.pool.store.residual_of_prefix graph.root beginning _ recorded
      (List.prefix_take_iff.mpr ⟨hpre, hle⟩) hlongest.reads
  constructor
  · intro hknown
    have hlt : place < recorded.length := (List.getElem?_eq_some_iff.mp hknown).1
    have hlen : (input.take (place + 1)).length = place + 1 :=
      List.length_take_of_le (Nat.le_trans hlt hlongest.le)
    have hread := hbegin (input.take (place + 1)) (List.take_prefix _ _)
      (by rw [hlen]; exact hlt)
    rcases (hrecords _ _).mp hread with ⟨hnil, _⟩ | ⟨one, hone, hpre, hsame⟩
    · rw [hnil] at hlen
      cases hlen
    · rw [hlen] at hsame
      refine ⟨one, hone, ?_, _, hlen, hpre, List.take_prefix _ _⟩
      rw [← List.getElem?_take_of_lt (Nat.lt_succ_self place), ← hsame,
        List.getElem?_take_of_lt (Nat.lt_succ_self place)]
      exact hknown
  · rintro ⟨one, hone, hknown, beginning, hlen, hpre, hinput⟩
    have hread := (hrecords beginning _).mpr (.inr ⟨one, hone, hpre, rfl⟩)
    have hle : beginning.length ≤ recorded.length := by
      by_contra hlt
      have hnone := hlongest.ends beginning.length (Nat.lt_of_not_le hlt) hinput.length_le
      rw [← List.prefix_iff_eq_take.mp hinput] at hnone
      cases hnone.symm.trans hread
    have hsame := Option.some.inj ((hbegin beginning hinput hle).symm.trans hread)
    rw [hlen] at hsame
    rw [← List.getElem?_take_of_lt (Nat.lt_succ_self place), hsame,
      List.getElem?_take_of_lt (Nat.lt_succ_self place)]
    exact hknown

/-- The recorded outputs differ from those of a trace first where an earlier trace contradicts it
first. -/
theorem differsFirst_iff (output : List α) (place : Nat) (known given : α) :
    DiffersFirst recorded output place known given ↔
      (∃ one ∈ earlier, Contradicts one (input, output) place known given) ∧
        ∀ before < place, ∀ other ∈ earlier, ∀ known given,
          ¬ Contradicts other (input, output) before known given := by
  have hat := graph.recorded_at_iff earlier hrecords input recorded hlongest
  constructor
  · intro hfirst
    obtain ⟨one, hone, hknown, hshared⟩ := (hat place known).mp hfirst.known_eq
    refine ⟨⟨one, hone, hshared, hknown, hfirst.given_eq, hfirst.ne⟩, ?_⟩
    intro before hlt other hother known' given' hcontra
    have hthere := (hat before known').mpr ⟨other, hother, hcontra.known_eq, hcontra.shared⟩
    exact hcontra.ne (Option.some.inj (hthere.symm.trans
      ((hfirst.before before hlt).trans hcontra.given_eq)))
  · rintro ⟨⟨one, hone, hcontra⟩, hleast⟩
    have hthere := (hat place known).mpr ⟨one, hone, hcontra.known_eq, hcontra.shared⟩
    refine ⟨hthere, hcontra.given_eq, hcontra.ne, fun before hlt => ?_⟩
    have hin := (List.getElem?_eq_some_iff.mp hthere).1
    have hin' := (List.getElem?_eq_some_iff.mp hcontra.given_eq).1
    have hknown := List.getElem?_eq_getElem (Nat.lt_trans hlt hin)
    have hgiven := List.getElem?_eq_getElem (Nat.lt_trans hlt hin')
    rw [hknown, hgiven]
    by_contra hne
    obtain ⟨other, hother, hsome, hshared⟩ := (hat before _).mp hknown
    exact hleast before hlt other hother _ _
      ⟨hshared, hsome, hgiven, fun he => hne (congrArg some he)⟩

theorem decides_error_iff (output : List α) (failure : Failure α) :
    graph.Decides input output recorded (.error failure) ↔
      Refused graph.arity earlier (input, output) failure := by
  have hfirst := graph.differsFirst_iff earlier hrecords input recorded hlongest output
  constructor
  · intro hdecides
    cases hdecides with
    | uneven hlen => exact .uneven hlen
    | outside hlen inside rest symbol hinput hinside hsymbol =>
      exact .outside hlen inside rest symbol hinput hinside hsymbol
    | conflict hlen hsym place known given hdiffers =>
      obtain ⟨⟨one, hone, hcontra⟩, hleast⟩ := (hfirst place known given).mp hdiffers
      exact .conflict ⟨hlen, hsym⟩ one hone place known given hcontra hleast
  · intro hrefused
    cases hrefused with
    | uneven hlen => exact .uneven hlen
    | outside hlen inside rest symbol hinput hinside hsymbol =>
      exact .outside hlen inside rest symbol hinput hinside hsymbol
    | conflict hfit one hone place known given hcontra hleast =>
      exact .conflict hfit.1 hfit.2 place known given
        ((hfirst place known given).mpr ⟨⟨one, hone, hcontra⟩, hleast⟩)

end

variable [DecidableEq α]

section

variable (graph : Graph α) (h : graph.Sound) (earlier : List (List Nat × List α))
  (hrecords : graph.Records earlier) (trace : List Nat × List α)

include h hrecords

theorem insert_error_iff (failure : Failure α) :
    (graph.insert trace.1 trace.2).result = .error failure ↔
      Refused graph.arity earlier trace failure := by
  obtain ⟨recorded, hlongest⟩ := graph.pool.store.exists_longest graph.root trace.1
  rw [graph.result_iff_decides h trace.1 trace.2 recorded hlongest]
  exact graph.decides_error_iff earlier hrecords trace.1 recorded hlongest trace.2 failure

theorem fits_of_ok (fresh : Bool) (hok : (graph.insert trace.1 trace.2).result = .ok fresh) :
    Fitting graph.arity trace ∧
      ∀ one ∈ earlier, ∀ place known given, ¬ Contradicts one trace place known given := by
  refine ⟨graph.fitting_of_ok h trace.1 trace.2 fresh hok,
    fun one hone place known given hcontra => ?_⟩
  obtain ⟨recorded, hlongest⟩ := graph.pool.store.exists_longest graph.root trace.1
  have hthere := (graph.recorded_at_iff earlier hrecords trace.1 recorded hlongest place known).mpr
    ⟨one, hone, hcontra.known_eq, hcontra.shared⟩
  obtain ⟨rest, hrest⟩ := graph.longest_prefix_of_ok h trace.1 trace.2 recorded fresh hlongest hok
  have hin := (List.getElem?_eq_some_iff.mp hthere).1
  have hgiven := hcontra.given_eq
  rw [← hrest, List.getElem?_append_left hin, hthere] at hgiven
  exact hcontra.ne (Option.some.inj hgiven)

theorem records_insert (fresh : Bool) (hok : (graph.insert trace.1 trace.2).result = .ok fresh) :
    (graph.insert trace.1 trace.2).graph.Records (earlier ++ [trace]) := by
  intro word outputs
  rw [graph.reading_insert_iff h trace.1 trace.2 fresh hok word outputs, hrecords word outputs,
    or_assoc]
  simp only [List.mem_append, List.mem_singleton, or_and_right, exists_or, exists_eq_left]

end

/-! ## All traces -/

/-- From a graph that records the traces `earlier` on, by induction over the others: all of them
are recorded, or one is the first to be refused. -/
theorem insertAll_cases (graph : Graph α) (h : graph.Sound) (earlier : List (List Nat × List α))
    (hrecords : graph.Records earlier) (hcons : Consistent graph.arity earlier)
    (traces : List (List Nat × List α)) :
    (Consistent graph.arity (earlier ++ traces) ∧ ∃ after, graph.insertAll traces = .ok after ∧
        after.Sound ∧ after.arity = graph.arity ∧ after.Records (earlier ++ traces)) ∨
      ∃ front trace rest failure, traces = front ++ trace :: rest ∧
        Consistent graph.arity (earlier ++ front) ∧
        Refused graph.arity (earlier ++ front) trace failure ∧
        graph.insertAll traces = .error failure := by
  induction traces generalizing graph earlier with
  | nil =>
    rw [List.append_nil]
    exact .inl ⟨hcons, graph, rfl, h, rfl, hrecords⟩
  | cons trace traces ih =>
    cases hresult : (graph.insert trace.1 trace.2).result with
    | error failure =>
      refine .inr ⟨[], trace, traces, failure, rfl, ?_, ?_, ?_⟩
      · rw [List.append_nil]
        exact hcons
      · rw [List.append_nil]
        exact (graph.insert_error_iff h earlier hrecords trace failure).mp hresult
      · simp only [insertAll, hresult, bind, Except.bind]
    | ok fresh =>
      obtain ⟨hsound, harity, _⟩ := graph.reading_insert h trace.1 trace.2 fresh hresult
      obtain ⟨hfit, hagree⟩ := graph.fits_of_ok h earlier hrecords trace fresh hresult
      have hrun : graph.insertAll (trace :: traces) =
          (graph.insert trace.1 trace.2).graph.insertAll traces := by
        simp only [insertAll, hresult, bind, Except.bind]
      have hnext := ih _ hsound (earlier ++ [trace])
        (graph.records_insert h earlier hrecords trace fresh hresult)
        (harity ▸ consistent_concat graph.arity earlier trace hcons hfit hagree)
      rw [harity, List.append_assoc, List.singleton_append] at hnext
      rw [hrun]
      rcases hnext with hdone | ⟨front, refused, rest, failure, rfl, hfront, hrefused, herror⟩
      · exact .inl hdone
      · rw [List.append_assoc, List.singleton_append] at hfront hrefused
        exact .inr ⟨trace :: front, refused, rest, failure, rfl, hfront, hrefused, herror⟩

theorem insertAll_append (graph : Graph α) (front rest : List (List Nat × List α)) :
    graph.insertAll (front ++ rest) =
      (graph.insertAll front).bind fun after => after.insertAll rest := by
  induction front generalizing graph with
  | nil => rfl
  | cons trace front ih =>
    simp only [List.cons_append, insertAll, bind, Except.bind]
    cases (graph.insert trace.1 trace.2).result with
    | error failure => rfl
    | ok fresh => exact ih _

omit [DecidableEq α] in
theorem records_new (arity : Nat) : (new arity : Graph α).Records [] := by
  intro word outputs
  rw [reading_new_iff]
  simp only [List.not_mem_nil, false_and, exists_false, or_false]

theorem ofTraces_cases (arity : Nat) (traces : List (List Nat × List α)) :
    (Consistent arity traces ∧ ∃ graph, ofTraces arity traces = .ok graph ∧
        graph.Sound ∧ graph.arity = arity ∧ graph.Records traces) ∨
      ∃ front trace rest failure, traces = front ++ trace :: rest ∧ Consistent arity front ∧
        Refused arity front trace failure ∧ ofTraces arity traces = .error failure :=
  insertAll_cases (new arity) (sound_new arity) [] (records_new arity)
    ⟨fun _ hmem => absurd hmem List.not_mem_nil, fun _ hmem => absurd hmem List.not_mem_nil⟩ traces

theorem ofTraces_ok_iff (arity : Nat) (traces : List (List Nat × List α)) :
    (∃ graph, ofTraces arity traces = .ok graph) ↔ Consistent arity traces := by
  rcases ofTraces_cases arity traces with ⟨hcons, graph, hok, _⟩ |
    ⟨front, trace, rest, failure, rfl, _, hrefused, herror⟩
  · exact iff_of_true ⟨graph, hok⟩ hcons
  · refine iff_of_false (fun ⟨graph, hok⟩ => nomatch herror.symm.trans hok) fun hcons => ?_
    refine hrefused.not_consistent arity front trace failure
      (hcons.of_subset arity _ _ fun found hfound => ?_)
    rw [List.append_cons]
    exact List.mem_append_left rest hfound

theorem records_of_ok (arity : Nat) (traces : List (List Nat × List α)) (graph : Graph α)
    (hok : ofTraces arity traces = .ok graph) :
    graph.Sound ∧ graph.arity = arity ∧ graph.Records traces := by
  rcases ofTraces_cases arity traces with ⟨_, found, hfound, hall⟩ |
    ⟨_, _, _, _, _, _, _, herror⟩
  · cases hfound.symm.trans hok
    exact hall
  · cases herror.symm.trans hok

theorem ofTraces_error_iff (arity : Nat) (traces : List (List Nat × List α))
    (failure : Failure α) : ofTraces arity traces = .error failure ↔
      ∃ front trace rest, traces = front ++ trace :: rest ∧ Consistent arity front ∧
        Refused arity front trace failure := by
  constructor
  · intro herror
    rcases ofTraces_cases arity traces with ⟨_, graph, hok, _⟩ |
      ⟨front, trace, rest, found, hsplit, hfront, hrefused, hfound⟩
    · cases herror.symm.trans hok
    · cases hfound.symm.trans herror
      exact ⟨front, trace, rest, hsplit, hfront, hrefused⟩
  · rintro ⟨front, trace, rest, rfl, hfront, hrefused⟩
    obtain ⟨graph, hok⟩ := (ofTraces_ok_iff arity front).mpr hfront
    obtain ⟨hsound, rfl, hrecords⟩ := records_of_ok arity front graph hok
    have hresult := (graph.insert_error_iff hsound front hrecords trace failure).mpr hrefused
    rw [ofTraces] at hok ⊢
    rw [insertAll_append, hok]
    simp only [Except.bind, insertAll, hresult, bind]

omit [DecidableEq α] in
/-- Of a trace that fits, the graph gives the outputs that its beginning has there. -/
theorem replay_of_records (graph : Graph α) (h : graph.Sound) (traces : List (List Nat × List α))
    (hrecords : graph.Records traces) (hfit : ∀ trace ∈ traces, trace.1.length = trace.2.length)
    (word : List Nat) (outputs : List α) : graph.replay word = .ok (some outputs) ↔
      (word = [] ∧ outputs = []) ∨
        ∃ trace ∈ traces, word <+: trace.1 ∧ outputs <+: trace.2 ∧
          word.length = outputs.length := by
  rw [graph.replay_eq_some_iff h, hrecords word outputs]
  refine or_congr_right (exists_congr fun trace => and_congr_right fun htrace =>
    and_congr_right fun hpre => ?_)
  have hle := hfit trace htrace ▸ hpre.length_le
  constructor
  · rintro rfl
    exact ⟨List.take_prefix _ _, (List.length_take_of_le hle).symm⟩
  · rintro ⟨hout, hlen⟩
    exact hlen ▸ List.prefix_iff_eq_take.mp hout

/-- Lists with the same members give the same graph but for the numbers of the states. -/
theorem renaming_of_members (arity : Nat) (traces others : List (List Nat × List α))
    (hsame : ∀ trace, trace ∈ others ↔ trace ∈ traces) (graph other : Graph α)
    (hok : ofTraces arity traces = .ok graph) (hok' : ofTraces arity others = .ok other) :
    ∃ f, graph.Renaming other f := by
  obtain ⟨hsound, _, hrecords⟩ := records_of_ok arity traces graph hok
  obtain ⟨hsound', _, hrecords'⟩ := records_of_ok arity others other hok'
  have hread : graph.reading = other.reading := by
    funext word
    refine Option.ext fun outputs => ?_
    rw [hrecords word outputs, hrecords' word outputs]
    simp only [hsame]
  obtain ⟨f, hf⟩ := graph.exists_matches other hsound hsound' hread
  exact ⟨f, graph.renaming_of_matches other hsound hsound' hread f hf⟩

/-- What a list of traces comes to: it is accepted exactly if the traces fit and agree pair by pair;
then the graph answers the beginnings of the traces and nothing else; lists with the same members
are accepted alike and give the same graph but for the numbers of the states; and a list is refused
for its first trace that does not fit or contradicts an earlier one, at the first such place. -/
theorem ofTraces_exact (arity : Nat) (traces : List (List Nat × List α)) :
    ((∃ graph, ofTraces arity traces = .ok graph) ↔ Consistent arity traces) ∧
    (∀ graph, ofTraces arity traces = .ok graph → ∀ word outputs,
      graph.replay word = .ok (some outputs) ↔ (word = [] ∧ outputs = []) ∨
        ∃ trace ∈ traces, word <+: trace.1 ∧ outputs <+: trace.2 ∧
          word.length = outputs.length) ∧
    (∀ others, (∀ trace, trace ∈ others ↔ trace ∈ traces) →
      ((∃ other, ofTraces arity others = .ok other) ↔
        ∃ graph, ofTraces arity traces = .ok graph) ∧
      ∀ graph other, ofTraces arity traces = .ok graph → ofTraces arity others = .ok other →
        ∃ f, graph.Renaming other f) ∧
    ∀ failure, ofTraces arity traces = .error failure ↔
      ∃ front trace rest, traces = front ++ trace :: rest ∧ Consistent arity front ∧
        Refused arity front trace failure := by
  refine ⟨ofTraces_ok_iff arity traces, fun graph hok => ?_, fun others hsame => ⟨?_, ?_⟩,
    ofTraces_error_iff arity traces⟩
  · obtain ⟨hsound, _, hrecords⟩ := records_of_ok arity traces graph hok
    have hcons := (ofTraces_ok_iff arity traces).mp ⟨graph, hok⟩
    exact graph.replay_of_records hsound traces hrecords fun trace htrace =>
      (hcons.fitting trace htrace).1
  · rw [ofTraces_ok_iff, ofTraces_ok_iff]
    exact ⟨fun h => h.of_subset arity others traces fun trace => (hsame trace).mpr,
      fun h => h.of_subset arity traces others fun trace => (hsame trace).mp⟩
  · exact renaming_of_members arity traces others hsame

/-- Three traces that cross in one state. -/
def crossing : List (List Nat × List Char) :=
  [([0, 0], ['x', 'x']), ([1, 0], ['y', 'x']), ([0, 1], ['x', 'z'])]

theorem ofTraces_crossing :
    ∃ graph other f, ofTraces 2 crossing = .ok graph ∧ ofTraces 2 crossing.reverse = .ok other ∧
      graph.Renaming other f ∧ graph.replay [1] = .ok (some ['y']) := by
  obtain ⟨_, hreplay, hmembers, _⟩ := ofTraces_exact 2 crossing
  obtain ⟨halike, hrenaming⟩ := hmembers crossing.reverse fun trace => List.mem_reverse
  have hsome : (ofTraces 2 crossing).toOption.isSome = true := by cbv
  cases hok : ofTraces 2 crossing with
  | error failure =>
    rw [hok] at hsome
    cases hsome
  | ok graph =>
    obtain ⟨other, hok'⟩ := halike.mpr ⟨graph, hok⟩
    obtain ⟨f, hf⟩ := hrenaming graph other hok hok'
    refine ⟨graph, other, f, rfl, hok', hf, (hreplay graph hok [1] ['y']).mpr (.inr ?_)⟩
    exact ⟨([1, 0], ['y', 'x']), by decide, ⟨[0], rfl⟩, ⟨['x'], rfl⟩, rfl⟩

/-- The first contradiction ends it. -/
example : ofTraces 1 [([0], ['a']), ([0], ['b']), ([0, 0], ['a', 'c'])] =
    .error (.refused (.conflict 0 'a' 'b')) := by cbv

end Graph

end TraceGraph
