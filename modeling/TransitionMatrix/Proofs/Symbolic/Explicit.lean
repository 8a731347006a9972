import TransitionMatrix.Proofs.FirstSeen
import TransitionMatrix.Proofs.StateSpace.Indices
import TransitionMatrix.Proofs.Symbolic.Labels

/-!
# Relations of fully fixed paths

A relation can be given as a list of transitions between encodings, each of which becomes a path that
fixes every variable. The matrix of such a relation is the matrix of the same transitions as entries:
states are numbered, what is not reachable is left out, and of the transitions between the same two
states the first one counts.
-/

namespace TransitionMatrix

/-! ## Reading a cube back -/

/-- A list of literals over the same variables agrees with the given ones in all variables only if it
is the same list. -/
theorem Literal.forall_find?_eq_iff {literals cube : List Literal}
    (hvars : cube.map Literal.var = literals.map Literal.var)
    (hnodup : (literals.map Literal.var).Nodup) :
    (∀ l ∈ cube, literals.find? (fun k => k.var == l.var) = some l) ↔ cube = literals := by
  constructor
  · intro h
    have hlength : cube.length = literals.length := by simpa using congrArg List.length hvars
    refine List.ext_getElem hlength fun i hi hi' => ?_
    have hmem : cube[i] ∈ literals := List.mem_of_find?_eq_some (h _ (List.getElem_mem hi))
    have hvar : cube[i].var = literals[i].var := by
      rw [← List.getElem_map Literal.var, ← List.getElem_map Literal.var]
      · simp only [hvars]
      · simpa using hi'
      · simpa using hi
    exact List.inj_on_of_nodup_map hnodup hmem (List.getElem_mem hi') hvar
  · rintro rfl l hl
    obtain ⟨k, hk⟩ : ∃ k, cube.find? (fun k => k.var == l.var) = some k :=
      Runs.exists_find?_of_mem hl (beq_self_eq_true _)
    have hvar : k.var = l.var := by simpa using List.find?_some hk
    rw [hk, List.inj_on_of_nodup_map hnodup (List.mem_of_find?_eq_some hk) hl hvar]

namespace VariableOrder

theorem cubeOf_eq_iff {a b : Nat} {vars : List Variable} :
    cubeOf a vars = cubeOf b vars ↔ ∀ i < vars.length, a.testBit i = b.testBit i := by
  induction vars with
  | nil => simp [cubeOf]
  | cons v rest ih =>
    rw [cubeOf, cubeOf, List.cons.injEq, Literal.mk.injEq, ih]
    constructor
    · rintro ⟨⟨_, htop⟩, hrest⟩ i hi
      rcases Nat.lt_succ_iff_lt_or_eq.1 hi with hlt | rfl
      · exact hrest i hlt
      · exact htop
    · intro h
      exact ⟨⟨rfl, h _ (Nat.lt_succ_self _)⟩, fun i hi => h i (Nat.lt_succ_of_lt hi)⟩

/-- Numbers that fit the order are told apart by their cubes. -/
theorem cube_inj {o : VariableOrder} {a b : Nat} (ha : a < 2 ^ o.length) (hb : b < 2 ^ o.length) :
    o.cube a = o.cube b ↔ a = b := by
  constructor
  · intro h
    have hbits := cubeOf_eq_iff.1 h
    apply Nat.eq_of_testBit_eq
    intro i
    by_cases hi : i < o.length
    · exact hbits i hi
    · have hpow : 2 ^ o.length ≤ 2 ^ i := Nat.pow_le_pow_right (by omega) (Nat.le_of_not_lt hi)
      rw [Nat.testBit_lt_two_pow (by omega), Nat.testBit_lt_two_pow (by omega)]
  · intro h
    rw [h]

theorem length_cube (o : VariableOrder) (n : Nat) : (o.cube n).length = o.length := by
  rw [length, ← o.cube_map_var n, List.length_map]

end VariableOrder

/-! ## Entries in order -/

namespace Entry

/-- Entries are ordered by source, then by destination. -/
def le (a b : Entry) : Bool :=
  decide (a.src < b.src) || decide (a.src = b.src) && decide (a.dst ≤ b.dst)

/-- Entries in the order of their sources, then of their destinations. -/
def Lt (a b : Entry) : Prop := a.src < b.src ∨ a.src = b.src ∧ a.dst < b.dst

instance : Std.Irrefl Lt := ⟨fun a h => by unfold Lt at h; omega⟩

instance : Std.Antisymm Lt := ⟨fun a b hab hba => by unfold Lt at hab hba; omega⟩

theorem le_iff {a b : Entry} : a.le b = true ↔ Lt a b ∨ (a.src = b.src ∧ a.dst = b.dst) := by
  simp only [le, Lt, Bool.or_eq_true, Bool.and_eq_true, decide_eq_true_eq]
  omega

theorem le_trans (a b c : Entry) : a.le b → b.le c → a.le c := by
  simp only [le_iff, Lt]
  omega

theorem le_total (a b : Entry) : a.le b || b.le a := by
  rw [Bool.or_eq_true, le_iff, le_iff]
  simp only [Lt]
  omega

/-- Between reachable states, a transition between encodings as an entry. -/
def numbered? (space : StateSpace) (t : Nat × Nat × Binary64) : Option Entry :=
  (space.indexOf? t.1).bind fun src => (space.indexOf? t.2.1).map fun dst => ⟨src, dst, t.2.2⟩

/-- The entries of a list of transitions between encodings: zeros and what is not reachable are left
out, the first transition between two states counts, and the entries are sorted. -/
def ofTransitions (space : StateSpace) (ts : List (Nat × Nat × Binary64)) : List Entry :=
  let kept := ts.filter fun t =>
    !t.2.2.isZero && (space.indexOf? t.1).isSome && (space.indexOf? t.2.1).isSome
  ((firstSeen (fun t => (t.1, t.2.1)) kept).filterMap (numbered? space)).mergeSort le

variable {space : StateSpace} {ts : List (Nat × Nat × Binary64)}

theorem numbered?_eq_some_iff {t : Nat × Nat × Binary64} {entry : Entry} :
    numbered? space t = some entry ↔ space.state? entry.src = some t.1 ∧
      space.state? entry.dst = some t.2.1 ∧ entry.weight = t.2.2 := by
  obtain ⟨src, dst, weight⟩ := entry
  rw [numbered?, Option.bind_eq_some_iff]
  constructor
  · rintro ⟨i, hi, h⟩
    obtain ⟨j, hj, heq⟩ := Option.map_eq_some_iff.1 h
    cases heq
    exact ⟨StateSpace.indexOf?_eq_some_iff.1 hi, StateSpace.indexOf?_eq_some_iff.1 hj, rfl⟩
  · rintro ⟨hsrc, hdst, rfl⟩
    refine ⟨src, StateSpace.indexOf?_eq_some_iff.2 hsrc, ?_⟩
    rw [StateSpace.indexOf?_eq_some_iff.2 hdst, Option.map_some]

/-- Of the transitions between two states, the first one that is not zero is an entry. -/
theorem mem_ofTransitions {entry : Entry} : entry ∈ ofTransitions space ts ↔
    ∃ a b, space.state? entry.src = some a ∧ space.state? entry.dst = some b ∧
      ts.find? (fun t => !t.2.2.isZero && decide ((t.1, t.2.1) = (a, b)))
        = some (a, b, entry.weight) := by
  have hfind : ∀ {a b : Nat}, space.state? entry.src = some a → space.state? entry.dst = some b →
      (ts.filter fun t => !t.2.2.isZero && (space.indexOf? t.1).isSome &&
          (space.indexOf? t.2.1).isSome).find? (fun t => decide ((t.1, t.2.1) = (a, b)))
        = ts.find? fun t => !t.2.2.isZero && decide ((t.1, t.2.1) = (a, b)) := by
    intro a b ha hb
    rw [List.find?_filter]
    refine List.find?_congr fun t _ => ?_
    by_cases hkey : (t.1, t.2.1) = (a, b)
    · obtain ⟨hsrc, hdst⟩ := Prod.mk.inj hkey
      rw [hsrc, hdst, StateSpace.indexOf?_eq_some_iff.2 ha, StateSpace.indexOf?_eq_some_iff.2 hb]
      simp
    · simp [hkey]
  rw [ofTransitions, List.mem_mergeSort, List.mem_filterMap]
  simp only [mem_firstSeen, numbered?_eq_some_iff]
  constructor
  · rintro ⟨⟨a, b, w⟩, hfirst, ha, hb, hw⟩
    refine ⟨a, b, ha, hb, ?_⟩
    rw [hw, ← hfind ha hb]
    exact hfirst
  · rintro ⟨a, b, ha, hb, hfirst⟩
    refine ⟨(a, b, entry.weight), ?_, ha, hb, rfl⟩
    rw [← hfind ha hb] at hfirst
    exact hfirst

theorem pairwise_ofTransitions : (ofTransitions space ts).Pairwise Lt := by
  have hdistinct : (ofTransitions space ts).Pairwise fun a b => (a.src, a.dst) ≠ (b.src, b.dst) := by
    refine (List.mergeSort_perm _ _).symm.pairwise ?_ fun {a b} h => h.symm
    rw [List.pairwise_filterMap]
    refine (List.pairwise_map.1 (nodup_map_firstSeen _ _)).imp fun {t u} hne a ha b hb heq => ?_
    obtain ⟨hasrc, hadst, _⟩ := numbered?_eq_some_iff.1 ha
    obtain ⟨hbsrc, hbdst, _⟩ := numbered?_eq_some_iff.1 hb
    obtain ⟨hsrc, hdst⟩ := Prod.mk.inj heq
    rw [hsrc, hbsrc] at hasrc
    rw [hdst, hbdst] at hadst
    exact hne (Prod.ext (Option.some.inj hasrc).symm (Option.some.inj hadst).symm)
  have hsorted : (ofTransitions space ts).Pairwise fun a b => a.le b = true :=
    List.pairwise_mergeSort le_trans le_total _
  refine (hsorted.and hdistinct).imp fun {a b} h => ?_
  obtain ⟨hle, hne⟩ := h
  rcases le_iff.1 hle with hlt | ⟨hsrc, hdst⟩
  · exact hlt
  · rw [hsrc, hdst] at hne
    exact absurd rfl hne

end Entry

namespace Encoding

variable {e : Encoding}

/-! ## Fully fixed paths -/

section Fixed

variable (hchoices : e.choices = none) (hcols : e.cols.length = e.rows.length)
  (hbits : e.states.numBits = e.rows.length) (hnodup : (e.rows.vars ++ e.cols.vars).Nodup)

include hchoices hnodup in
/-- A cube that fixes every variable is satisfied by the transition that it was made from only. -/
theorem satisfies_cube_iff {a b s d : Nat} (ha : a < 2 ^ e.rows.length) (hb : b < 2 ^ e.cols.length)
    (hs : s < 2 ^ e.rows.length) (hd : d < 2 ^ e.cols.length) (choice : Nat) :
    e.Satisfies s choice d (e.rows.cube a ++ e.cols.cube b) ↔ s = a ∧ d = b := by
  have hliterals : e.literals s choice d = e.rows.cube s ++ e.cols.cube d := by
    rw [literals, hchoices, Option.elim_none, List.append_nil]
  have hvars : ∀ m n, (e.rows.cube m ++ e.cols.cube n).map Literal.var
      = e.rows.vars ++ e.cols.vars := by
    intro m n
    rw [List.map_append, VariableOrder.cube_map_var, VariableOrder.cube_map_var]
  rw [Satisfies, hliterals, Literal.forall_find?_eq_iff (by rw [hvars, hvars]) (by rwa [hvars])]
  constructor
  · intro h
    have hlength : (e.rows.cube a).length = (e.rows.cube s).length := by
      rw [VariableOrder.length_cube, VariableOrder.length_cube]
    obtain ⟨hrow, hcol⟩ := List.append_inj h hlength
    exact ⟨((VariableOrder.cube_inj ha hs).1 hrow).symm, ((VariableOrder.cube_inj hb hd).1 hcol).symm⟩
  · rintro ⟨rfl, rfl⟩
    rfl

include hcols hbits hchoices hnodup in
theorem covers_cube_iff {a b src dst choice : Nat} {w : Binary64} (ha : a < 2 ^ e.rows.length)
    (hb : b < 2 ^ e.rows.length) :
    e.covers ⟨e.rows.cube a ++ e.cols.cube b, w⟩ src choice dst = true ↔
      e.states.state? src = some a ∧ e.states.state? dst = some b := by
  rw [covers_iff]
  rw [← hcols] at hb
  have hfits : ∀ {i s : Nat}, e.states.state? i = some s → s < 2 ^ e.rows.length := by
    intro i s hs
    rw [← hbits]
    exact StateSpace.state?_lt hs
  constructor
  · rintro ⟨s, d, hs, hd, hsat⟩
    have hdlt : d < 2 ^ e.cols.length := hcols ▸ hfits hd
    obtain ⟨rfl, rfl⟩ := (satisfies_cube_iff hchoices hnodup ha hb (hfits hs) hdlt choice).1 hsat
    exact ⟨hs, hd⟩
  · rintro ⟨hs, hd⟩
    exact ⟨a, b, hs, hd, (satisfies_cube_iff hchoices hnodup ha hb ha hb choice).2 ⟨rfl, rfl⟩⟩

/-- The variables of a fully fixed path are those of the two orders. -/
theorem known_ofTransitions (ts : List (Nat × Nat × Binary64)) :
    e.Known (Relation.ofTransitions e.rows e.cols ts).paths := by
  intro path hpath
  obtain ⟨hpath, _⟩ := List.mem_filter.1 hpath
  obtain ⟨⟨a, b, w⟩, _, rfl⟩ := List.mem_map.1 hpath
  refine exists_restrict .free fun l hl => ?_
  have hmem : l.var ∈ (e.literals a 0 b).map Literal.var := by
    rw [literals]
    exact List.mem_map_of_mem (List.mem_append_left _ hl)
  obtain ⟨k, hk, hvar⟩ := List.mem_map.1 hmem
  obtain ⟨k', hk'⟩ : ∃ k', (e.literals a 0 b).find? (fun k => k.var == l.var) = some k' :=
    Runs.exists_find?_of_mem hk (by simpa using hvar)
  rw [find?_literals] at hk'
  obtain ⟨place, hplace, _⟩ := Option.map_eq_some_iff.1 hk'
  exact ⟨place, hplace⟩

variable {ts : List (Nat × Nat × Binary64)}
  (hts : ∀ t ∈ ts, t.1 < 2 ^ e.rows.length ∧ t.2.1 < 2 ^ e.rows.length)

include hchoices hcols hbits hnodup hts

/-- A transition has the value of the first one in the list that is between the same states. -/
theorem firstValue?_ofTransitions {src dst choice a b : Nat} (ha : e.states.state? src = some a)
    (hb : e.states.state? dst = some b) :
    e.firstValue? (Relation.ofTransitions e.rows e.cols ts) src choice dst
      = (ts.find? fun t => !t.2.2.isZero && decide ((t.1, t.2.1) = (a, b))).map fun t => t.2.2 := by
  rw [firstValue?, Relation.ofTransitions, Relation.paths_ofPaths, List.find?_filter, List.find?_map,
    Option.map_map]
  congr 1
  refine List.find?_congr fun t ht => ?_
  obtain ⟨s, d, w⟩ := t
  obtain ⟨hs, hd⟩ := hts _ ht
  have hcovers : e.covers ⟨e.rows.cube s ++ e.cols.cube d, w⟩ src choice dst = true ↔
      s = a ∧ d = b := by
    rw [covers_cube_iff hchoices hcols hbits hnodup hs hd, ha, hb, Option.some.injEq,
      Option.some.injEq, @eq_comm _ a, @eq_comm _ b]
  rw [Bool.eq_iff_iff]
  simp only [Function.comp_apply, decide_eq_true_eq, Bool.and_eq_true, hcovers, Prod.mk.injEq]

theorem table_ofTransitions :
    (Transition.table e.states.size (2 ^ e.choiceWidth)
        (e.firstValue? (Relation.ofTransitions e.rows e.cols ts))).map Transition.toEntry
      = Entry.ofTransitions e.states ts := by
  have hwidth : e.choiceWidth = 0 := by rw [choiceWidth, hchoices]; rfl
  refine List.Pairwise.eq_of_mem_iff ?_ Entry.pairwise_ofTransitions fun entry => ?_
  · rw [hwidth, Nat.pow_zero, List.pairwise_map]
    refine Transition.pairwise_table.imp_of_mem fun {t u} ht hu hlt => ?_
    obtain ⟨⟨_, htc, _⟩, _⟩ := Transition.mem_table.1 ht
    obtain ⟨⟨_, huc, _⟩, _⟩ := Transition.mem_table.1 hu
    rcases hlt with hsrc | ⟨hsrc, hchoice | ⟨_, hdst⟩⟩
    · exact Or.inl hsrc
    · omega
    · exact Or.inr ⟨hsrc, hdst⟩
  · rw [Entry.mem_ofTransitions, List.mem_map]
    constructor
    · rintro ⟨t, ht, rfl⟩
      obtain ⟨_, hvalue⟩ := Transition.mem_table.1 ht
      obtain ⟨_, _, hcovers, _⟩ := covers_of_firstValue? hvalue
      obtain ⟨a, b, ha, hb, _⟩ := covers_iff.1 hcovers
      refine ⟨a, b, ha, hb, ?_⟩
      rw [firstValue?_ofTransitions hchoices hcols hbits hnodup hts ha hb] at hvalue
      obtain ⟨⟨s, d, w⟩, hfind, hw⟩ := Option.map_eq_some_iff.1 hvalue
      have hkey := List.find?_some hfind
      rw [Bool.and_eq_true, decide_eq_true_eq, Prod.mk.injEq] at hkey
      obtain ⟨_, rfl, rfl⟩ := hkey
      rw [hfind]
      exact congrArg (fun w => some (s, d, w)) hw
    · rintro ⟨a, b, ha, hb, hfind⟩
      refine ⟨⟨entry.src, 0, entry.dst, entry.weight⟩, Transition.mem_table.2 ⟨⟨?_, ?_, ?_⟩, ?_⟩, rfl⟩
      · exact StateSpace.lt_size_of_state? ha
      · exact Nat.two_pow_pos _
      · exact StateSpace.lt_size_of_state? hb
      · rw [firstValue?_ofTransitions hchoices hcols hbits hnodup hts ha hb, hfind, Option.map_some]

/-- The matrix of a relation of fully fixed paths, or the error that stops it, is that of the entries
of its transitions. -/
theorem matrix_of_transitions :
    (e.matrix (Relation.ofTransitions e.rows e.cols ts)).result
      = (Matrix.ofEntries e.states.size (Entry.ofTransitions e.states ts) e.options).result := by
  have hwidth : e.choiceWidth = 0 := by rw [choiceWidth, hchoices]; rfl
  have hcheck : e.check = .ok () := check_eq_ok_iff.2 ⟨hcols, hbits, by omega⟩
  obtain ⟨transitions, hexpand⟩ :=
    exists_expandTo e.destinations hcheck (known_ofTransitions (e := e) ts)
  have htable := expand_eq hexpand
  have hentries : transitions.map Transition.toEntry = Entry.ofTransitions e.states ts := by
    rw [htable, table_ofTransitions hchoices hcols hbits hnodup hts]
  have hstore : e.store transitions
      = Matrix.ofEntries e.states.size (transitions.map Transition.toEntry) e.options := by
    rw [store, if_neg (by omega)]
  rw [matrix, Traced.result_bind, expand, hexpand, ← hentries, ← hstore]
  rfl

end Fixed

/-- The states `000`, `101` and `110`, with the variables of sources and destinations in turn. -/
def inTurn : Encoding where
  rows := ⟨[.nth 0, .nth 2, .nth 4]⟩
  cols := ⟨[.nth 1, .nth 3, .nth 5]⟩
  choices := none
  states := ⟨3, #[0, 5, 6], by decide, by decide, by decide⟩
  options := {}

/-- A zero before the transition that counts, a repetition after it, and a state that is not there. -/
theorem matrix_of_transitions_inTurn :
    (inTurn.matrix (.ofTransitions inTurn.rows inTurn.cols
        [(5, 0, .zero), (6, 1, .one), (5, 0, .one), (0, 6, ⟨0x4000000000000000⟩),
          (5, 0, ⟨0x4000000000000000⟩)])).result
      = (Matrix.ofEntries 3 [⟨0, 2, ⟨0x4000000000000000⟩⟩, ⟨1, 0, .one⟩] {}).result := by
  rw [matrix_of_transitions rfl rfl rfl (by decide) (by decide)]
  have hzero : inTurn.states.indexOf? 0 = some 0 := StateSpace.indexOf?_eq_some_iff.2 rfl
  have hfive : inTurn.states.indexOf? 5 = some 1 := StateSpace.indexOf?_eq_some_iff.2 rfl
  have hsix : inTurn.states.indexOf? 6 = some 2 := StateSpace.indexOf?_eq_some_iff.2 rfl
  have hone : inTurn.states.indexOf? 1 = none := by
    refine Option.eq_none_iff_forall_ne_some.2 fun i h => ?_
    have hmem := Array.mem_of_getElem? (StateSpace.indexOf?_eq_some_iff.1 h)
    simp [inTurn] at hmem
  have htwo : Binary64.isZero ⟨0x4000000000000000⟩ = false := by decide
  have hkept : Entry.ofTransitions inTurn.states
        [(5, 0, .zero), (6, 1, .one), (5, 0, .one), (0, 6, ⟨0x4000000000000000⟩),
          (5, 0, ⟨0x4000000000000000⟩)]
      = [⟨1, 0, .one⟩, ⟨0, 2, ⟨0x4000000000000000⟩⟩].mergeSort Entry.le := by
    simp [Entry.ofTransitions, Entry.numbered?, firstSeen, hzero, hfive, hsix, hone, htwo]
  have hsorted : [⟨1, 0, .one⟩, ⟨0, 2, ⟨0x4000000000000000⟩⟩].mergeSort Entry.le
      = [⟨0, 2, ⟨0x4000000000000000⟩⟩, ⟨1, 0, .one⟩] := by
    simp [List.mergeSort, Entry.le]
  rw [hkept, hsorted]
  rfl

end Encoding

end TransitionMatrix
