import TransitionMatrix.Proofs.ChoiceMatrix.Calls
import TransitionMatrix.Proofs.Symbolic.Rewards

/-!
# Labels of a relation

Labels are expanded like transitions, but to choices: a choice gets the value of the first path that
covers it when destinations are left out of the path. The numbers of the choices are those of the
transitions, so that the labels come out the same for every matrix of the relation. A value that is
no action is an error even where it is given to a choice that the model does not have.
-/

namespace TransitionMatrix

namespace Encoding

variable {e : Encoding}

/-! ## Choices covered by a path -/

/-- The literals that hold of a choice, for the encodings of its state and of the choice. -/
def choiceLiterals (e : Encoding) (src choice : Nat) : List Literal :=
  e.rows.cube src ++ e.choices.elim [] fun order => order.cube choice

/-- The path covers the choice of the state with the given index. -/
def coversChoice (e : Encoding) (path : Path) (src choice : Nat) : Bool :=
  (e.states.state? src).any fun s => decide (∀ l ∈ path.cube,
    (e.choiceLiterals s choice).find? (fun k => k.var == l.var) = some l)

/-- The value of the first path that covers a choice when destinations are left out. -/
def actionValue? (e : Encoding) (actions : Relation) (src choice : Nat) : Option Binary64 :=
  (actions.paths.find? fun path => e.coversChoice (e.withoutCols path) src choice).map Path.value

theorem satisfies_withoutCols (path : Path) (src choice dst : Nat) :
    e.Satisfies src choice dst (e.withoutCols path).cube ↔
      ∀ l ∈ (e.withoutCols path).cube,
        (e.choiceLiterals src choice).find? (fun k => k.var == l.var) = some l := by
  refine forall₂_congr fun l hl => ?_
  obtain ⟨_, hcol⟩ := List.mem_filter.1 hl
  have hposition : e.cols.position? l.var = none := Option.isNone_iff_eq_none.1 hcol
  have hcols : (e.cols.cube dst).find? (fun k => k.var == l.var) = none := by
    rw [VariableOrder.find?_cube, VariableOrder.bit?, hposition]
    rfl
  rw [literals, choiceLiterals, List.append_assoc, List.find?_append, List.find?_append, hcols,
    Option.none_or, List.find?_append]

theorem coversChoice_iff {path : Path} {src choice : Nat} (dst : Nat) :
    e.coversChoice (e.withoutCols path) src choice = true ↔
      ∃ s, e.states.state? src = some s ∧ e.Satisfies s choice dst (e.withoutCols path).cube := by
  simp only [coversChoice, Option.any_eq_true, decide_eq_true_eq, satisfies_withoutCols]

/-- Without destinations, a path has the choices that it covers. -/
theorem reaches_withoutCols {path : Path} {p? : Option CubePattern} (hcheck : e.check = .ok ())
    (hp : e.patterns (e.withoutCols path).cube = .ok p?) (src choice dst : Nat) :
    e.reaches (fun _ => [0]) (e.withoutCols path) (src, choice, dst)
      = (decide (choice < 2 ^ e.choiceWidth) &&
          (decide (dst = 0) && e.coversChoice (e.withoutCols path) src choice)) := by
  rw [Bool.eq_iff_iff, Bool.and_eq_true, Bool.and_eq_true, decide_eq_true_eq, decide_eq_true_eq,
    reaches, hp]
  cases p? with
  | none =>
    constructor
    · intro h
      cases h
    · rintro ⟨_, _, hcovers⟩
      obtain ⟨s, _, hsat⟩ := (coversChoice_iff dst).1 hcovers
      exact absurd hsat (not_satisfies_of_patterns hp s choice dst)
  | some p =>
    -- no bit of the destination is fixed, so the fixed bits themselves do for one
    have hcol : p.col.Agrees p.col.value := rfl
    simp only [decide_eq_true_eq, meets_iff hcheck hp, List.mem_singleton]
    rw [coversChoice_iff p.col.value]
    constructor
    · rintro ⟨⟨s, hs, hsrc⟩, ⟨hlt, hchoice⟩, hdst⟩
      have hsat := (agrees_iff_satisfies hp s choice p.col.value).1 ⟨hsrc, hchoice, hcol⟩
      exact ⟨hlt, hdst, s, hs, hsat⟩
    · rintro ⟨hlt, hdst, s, hs, hsat⟩
      obtain ⟨hsrc, hchoice, _⟩ := (agrees_iff_satisfies hp s choice p.col.value).2 hsat
      exact ⟨⟨s, hs, hsrc⟩, ⟨hlt, hchoice⟩, hdst⟩

/-! ## Expanding labels -/

theorem paths_withoutCols (actions : Relation) :
    (Relation.ofPaths (actions.paths.map e.withoutCols)).paths = actions.paths.map e.withoutCols := by
  rw [Relation.paths_ofPaths, List.filter_eq_self]
  intro path' hpath'
  obtain ⟨path, hpath, rfl⟩ := List.mem_map.1 hpath'
  have hzero : path.value.isZero = false := actions.nonzero path hpath
  simp [withoutCols, hzero]

theorem find?_withoutCols (actions : Relation) (src choice dst : Nat) :
    ((Relation.ofPaths (actions.paths.map e.withoutCols)).paths.find?
        fun path => decide (dst = 0) && e.coversChoice path src choice).map Path.value
      = if dst = 0 then e.actionValue? actions src choice else none := by
  split
  · rename_i hdst
    simp only [hdst, decide_true, Bool.true_and]
    rw [paths_withoutCols, List.find?_map, Option.map_map]
    rfl
  · rename_i hdst
    rw [Option.map_eq_none_iff, List.find?_eq_none]
    intro path _ hcovers
    rw [Bool.and_eq_true, decide_eq_true_eq] at hcovers
    exact hdst hcovers.1

/-- Labels are expanded into the table of the values of the choices, all of them to the destination
zero. -/
theorem expandChoices_eq {actions : Relation} {ts : List Transition}
    (h : (e.expandChoices (.ofPaths (actions.paths.map e.withoutCols))).result = .ok ts) :
    ts = Transition.table e.states.size (2 ^ e.choiceWidth) fun src choice dst =>
      if dst = 0 then e.actionValue? actions src choice else none := by
  obtain ⟨hcheck, _, hraw, _⟩ := eq_distinct_of_expandTo h
  have hknown := known_of_expandPaths hraw
  have hreaches : ∀ path ∈ (Relation.ofPaths (actions.paths.map e.withoutCols)).paths,
      ∀ src choice dst, e.reaches (fun _ => [0]) path (src, choice, dst)
        = (decide (choice < 2 ^ e.choiceWidth) &&
            (decide (dst = 0) && e.coversChoice path src choice)) := by
    intro path hpath src choice dst
    obtain ⟨p?, hp⟩ := hknown path hpath
    rw [paths_withoutCols] at hpath
    obtain ⟨path, _, rfl⟩ := List.mem_map.1 hpath
    exact reaches_withoutCols hcheck hp src choice dst
  have hrange : ∀ path src choice dst, (decide (dst = 0) && e.coversChoice path src choice) = true →
      src < e.states.size ∧ dst < e.states.size := by
    intro path src choice dst hcovered
    rw [Bool.and_eq_true, decide_eq_true_eq] at hcovered
    obtain ⟨hdst, hcovers⟩ := hcovered
    obtain ⟨s, hs, _⟩ := (Option.any_eq_true _ _).1 hcovers
    have hsrc := StateSpace.lt_size_of_state? hs
    exact ⟨hsrc, by omega⟩
  rw [expandTo_eq h hreaches hrange]
  simp only [find?_withoutCols]

theorem mem_expandChoices {actions : Relation} {ts : List Transition}
    (h : (e.expandChoices (.ofPaths (actions.paths.map e.withoutCols))).result = .ok ts)
    {t : Transition} : t ∈ ts ↔
      (t.src < e.states.size ∧ t.choice < 2 ^ e.choiceWidth ∧ t.dst = 0) ∧
        e.actionValue? actions t.src t.choice = some t.weight := by
  rw [expandChoices_eq h, Transition.mem_table]
  constructor
  · rintro ⟨⟨hsrc, hchoice, _⟩, hvalue⟩
    rw [Option.ite_none_right_eq_some] at hvalue
    exact ⟨⟨hsrc, hchoice, hvalue.1⟩, hvalue.2⟩
  · rintro ⟨⟨hsrc, hchoice, hdst⟩, hvalue⟩
    rw [if_pos hdst]
    exact ⟨⟨hsrc, hchoice, by omega⟩, hvalue⟩

theorem exists_restrict (p : CubePattern) {cube : List Literal}
    (h : ∀ l ∈ cube, ∃ place, e.locate? l.var = some place) :
    ∃ result, e.restrict p cube = .ok result := by
  induction cube generalizing p with
  | nil => exact ⟨some p, rfl⟩
  | cons l rest ih =>
    obtain ⟨⟨component, bit⟩, hplace⟩ := h l List.mem_cons_self
    rw [restrict, hplace]
    dsimp only
    cases p.fix component bit l.positive with
    | none => exact ⟨none, rfl⟩
    | some q => exact ih q fun k hk => h k (List.mem_cons_of_mem _ hk)

/-- Every variable that the paths mention carries a bit. -/
def Located (e : Encoding) (paths : List Path) : Prop :=
  ∀ path ∈ paths, ∀ l ∈ path.cube, ∃ place, e.locate? l.var = some place

theorem known_withoutCols {actions : Relation} (h : e.Located actions.paths) :
    e.Known (Relation.ofPaths (actions.paths.map e.withoutCols)).paths := by
  rw [paths_withoutCols]
  intro path' hpath'
  obtain ⟨path, hpath, rfl⟩ := List.mem_map.1 hpath'
  exact exists_restrict .free fun l hl => h path hpath l (List.mem_filter.1 hl).1

/-! ## Actions -/

/-- The value stands for an action. -/
def IsAction (value : Binary64) : Prop := ∃ n, value.toNat? = some n ∧ 1 ≤ n ∧ n < 2 ^ 32

theorem actionOf_eq_ok_iff {value : Binary64} {n : Nat} :
    actionOf value = .ok n ↔ value.toNat? = some n ∧ 1 ≤ n ∧ n < 2 ^ 32 := by
  rw [actionOf]
  cases value.toNat? with
  | none =>
    constructor
    · intro h
      cases h
    · rintro ⟨h, _⟩
      cases h
  | some k =>
    dsimp only
    constructor
    · intro h
      split at h
      · rename_i hk
        cases h
        exact ⟨rfl, hk⟩
      · cases h
    · rintro ⟨h, hn⟩
      cases h
      exact if_pos hn

theorem actionOf_eq_error {value : Binary64} {err : Error} (h : actionOf value = .error err) :
    ¬ IsAction value ∧ err = .invalidActionLabel value := by
  constructor
  · rintro ⟨n, hn⟩
    rw [actionOf_eq_ok_iff.2 hn] at h
    cases h
  · rw [actionOf] at h
    split at h
    · split at h
      · cases h
      · cases h
        rfl
    · cases h
      rfl

/-- The label that a choice with a value has under a numbering. -/
def toLabel? (numbering : ChoiceNumbering) (t : Transition) : Option Label :=
  t.weight.toNat?.bind fun n =>
    (numbering.number? t.src t.choice).map fun number => ⟨t.src, number, n - 1⟩

/-- The labels are those of the numbered choices, one after another, if all values are actions. -/
theorem labels_eq_of_labelsOf {numbering : ChoiceNumbering} {ts : List Transition}
    {labels : List Label} (h : (labelsOf numbering ts).result = .ok labels) :
    (∀ t ∈ ts, IsAction t.weight) ∧ labels = ts.filterMap (toLabel? numbering) := by
  induction ts generalizing labels with
  | nil =>
    cases h
    exact ⟨by simp, rfl⟩
  | cons t rest ih =>
    obtain ⟨n, haction, h⟩ := Traced.result_bind_eq_ok_iff.1 h
    obtain ⟨hvalue, hn⟩ := actionOf_eq_ok_iff.1 haction
    cases hnumber : numbering.number? t.src t.choice with
    | none =>
      rw [hnumber] at h
      obtain ⟨_, _, h⟩ := Traced.result_bind_eq_ok_iff.1 h
      obtain ⟨hrest, hlabels⟩ := ih h
      have ht : toLabel? numbering t = none := by
        rw [toLabel?, hvalue, hnumber]
        rfl
      exact ⟨List.forall_mem_cons.2 ⟨⟨n, hvalue, hn⟩, hrest⟩,
        by rw [hlabels, List.filterMap_cons_none ht]⟩
    | some number =>
      rw [hnumber] at h
      obtain ⟨later, hlater, h⟩ := Traced.result_bind_eq_ok_iff.1 h
      obtain ⟨hrest, hlabels⟩ := ih hlater
      have ht : toLabel? numbering t = some ⟨t.src, number, n - 1⟩ := by
        rw [toLabel?, hvalue, hnumber]
        rfl
      have hcons : (⟨t.src, number, n - 1⟩ :: later : List Label) = labels := Except.ok.inj h
      exact ⟨List.forall_mem_cons.2 ⟨⟨n, hvalue, hn⟩, hrest⟩,
        by rw [← hcons, hlabels, List.filterMap_cons_some ht]⟩

/-- The error is that of a value that is no action. -/
theorem exists_of_labelsOf_eq_error {numbering : ChoiceNumbering} {ts : List Transition}
    {err : Error} (h : (labelsOf numbering ts).result = .error err) :
    ∃ t ∈ ts, ¬ IsAction t.weight ∧ err = .invalidActionLabel t.weight := by
  induction ts with
  | nil => cases h
  | cons t rest ih =>
    rcases Traced.result_bind_eq_error_iff.1 h with haction | ⟨n, _, h⟩
    · exact ⟨t, List.mem_cons_self, actionOf_eq_error haction⟩
    · have hrest : (labelsOf numbering rest).result = .error err := by
        cases hnumber : numbering.number? t.src t.choice with
        | none =>
          rw [hnumber] at h
          rcases Traced.result_bind_eq_error_iff.1 h with hemit | ⟨_, _, h⟩
          · cases hemit
          · exact h
        | some number =>
          rw [hnumber] at h
          rcases Traced.result_bind_eq_error_iff.1 h with hlater | ⟨_, _, h⟩
          · exact hlater
          · cases h
      obtain ⟨u, hu, herr⟩ := ih hrest
      exact ⟨u, List.mem_cons_of_mem _ hu, herr⟩

/-! ## Labelled matrices -/

/-- The matrix is one of the relation: that of its weights, or that of rewards. -/
def ChoicesFrom (e : Encoding) (relation : Relation) (m : ChoiceMatrix) : Prop :=
  (e.choiceMatrix relation).result = .ok m ∨
    ∃ rewards, (e.rewardChoiceMatrix relation rewards).result = .ok m

theorem grouped_of_choicesFrom {relation : Relation} {m : ChoiceMatrix}
    (hm : e.ChoicesFrom relation m) :
    m.Grouped ((List.range e.states.size).map fun src => (e.choicesOf relation src).length) := by
  simp only [← used_firstValue?]
  rcases hm with h | ⟨rewards, h⟩
  · exact (built_of_storeChoices (table_of_choiceMatrix h)).grouped
  · exact (built_of_storeChoices (table_of_rewardChoiceMatrix h)).grouped

theorem lt_of_choicesOf {relation : Relation} {src number choice : Nat}
    (h : (e.choicesOf relation src)[number]? = some choice) : choice < 2 ^ e.choiceWidth := by
  obtain ⟨hmem, _⟩ := List.mem_filter.1 (List.mem_of_getElem? h)
  exact List.mem_range.1 hmem

theorem exists_choiceRow_of_choicesFrom {relation : Relation} {m : ChoiceMatrix}
    (hm : e.ChoicesFrom relation m) {src number choice : Nat} (hsrc : src < e.states.size)
    (hchoice : (e.choicesOf relation src)[number]? = some choice) :
    ∃ row, m.choiceRow src number = .ok row := by
  obtain ⟨hnumber, _⟩ := List.getElem?_eq_some_iff.1 hchoice
  have hgrouped := grouped_of_choicesFrom hm
  exact ⟨_, hgrouped.choiceRow_eq (by simpa using hsrc) (by simpa using hnumber)⟩

theorem exists_expand_of_choicesFrom {relation : Relation} {m : ChoiceMatrix}
    (hm : e.ChoicesFrom relation m) : ∃ ts, (e.expand relation).result = .ok ts := by
  rcases hm with h | ⟨rewards, h⟩
  · obtain ⟨ts, hts, _⟩ := Traced.result_bind_eq_ok_iff.1 h
    exact ⟨ts, hts⟩
  · obtain ⟨ts, hts, _⟩ := Traced.result_bind_eq_ok_iff.1 h
    exact ⟨ts, hts⟩

/-- The choices of the relation have the actions that they are given, and the others none. -/
structure Labelled (e : Encoding) (relation actions : Relation) (m : ChoiceMatrix) : Prop where
  numChoices_eq : ∀ src < e.states.size,
    m.numChoices src = .ok (e.choicesOf relation src).length
  label_eq : ∀ src < e.states.size, ∀ number choice value,
    (e.choicesOf relation src)[number]? = some choice →
    e.actionValue? actions src choice = some value →
      ∃ n, value.toNat? = some n ∧ 1 ≤ n ∧ n < 2 ^ 32 ∧
        m.choiceLabel src number = .ok (some (n - 1))
  label_eq_none : ∀ src < e.states.size, ∀ number choice,
    (e.choicesOf relation src)[number]? = some choice →
    e.actionValue? actions src choice = none → m.choiceLabel src number = .ok none

/-- Some choice, in the model or not, is given the value, which is no action. -/
def Mislabels (e : Encoding) (actions : Relation) (value : Binary64) : Prop :=
  ∃ src < e.states.size, ∃ choice < 2 ^ e.choiceWidth,
    e.actionValue? actions src choice = some value ∧ ¬ IsAction value

section Labels

variable {relation actions : Relation} {transitions labelled : List Transition}
  {labels : List Label}
  (hrelation : (e.expand relation).result = .ok transitions)
  (hactions : (e.expandChoices (.ofPaths (actions.paths.map e.withoutCols))).result = .ok labelled)
  (hlabels : (labelsOf (ChoiceNumbering.ofSorted transitions) labelled).result = .ok labels)

include hrelation in
theorem number?_expand {src choice number : Nat} :
    (ChoiceNumbering.ofSorted transitions).number? src choice = some number ↔
      src < e.states.size ∧ (e.choicesOf relation src)[number]? = some choice := by
  rw [expand_eq hrelation, ChoiceNumbering.number?_table, used_firstValue?]

include hrelation hactions hlabels

theorem mem_labels {src number a : Nat} : ⟨src, number, a⟩ ∈ labels ↔
    src < e.states.size ∧ ∃ choice value n, (e.choicesOf relation src)[number]? = some choice ∧
      e.actionValue? actions src choice = some value ∧ value.toNat? = some n ∧ a = n - 1 := by
  obtain ⟨_, heq⟩ := labels_eq_of_labelsOf hlabels
  rw [heq, List.mem_filterMap]
  constructor
  · rintro ⟨t, ht, hl⟩
    obtain ⟨n, hvalue, hl⟩ := Option.bind_eq_some_iff.1 hl
    obtain ⟨number', hnumber, hl⟩ := Option.map_eq_some_iff.1 hl
    cases hl
    obtain ⟨hsrc, hchoice⟩ := (number?_expand hrelation).1 hnumber
    obtain ⟨_, haction⟩ := (mem_expandChoices hactions).1 ht
    exact ⟨hsrc, t.choice, t.weight, n, hchoice, haction, hvalue, rfl⟩
  · rintro ⟨hsrc, choice, value, n, hchoice, haction, hvalue, rfl⟩
    have hlt := lt_of_choicesOf hchoice
    have ht : ⟨src, choice, 0, value⟩ ∈ labelled :=
      (mem_expandChoices hactions).2 ⟨⟨hsrc, hlt, rfl⟩, haction⟩
    have hnumber := (number?_expand hrelation).2 ⟨hsrc, hchoice⟩
    refine ⟨_, ht, ?_⟩
    rw [toLabel?, hvalue, Option.bind_some, hnumber, Option.map_some]

theorem action?_labels {src number choice : Nat} (hsrc : src < e.states.size)
    (hchoice : (e.choicesOf relation src)[number]? = some choice) :
    Label.action? labels src number
      = (e.actionValue? actions src choice).bind fun value => value.toNat?.map (· - 1) := by
  refine Label.action?_eq fun a => ?_
  rw [mem_labels hrelation hactions hlabels, Option.bind_eq_some_iff]
  constructor
  · rintro ⟨_, choice', value, n, hchoice', haction, hvalue, rfl⟩
    obtain rfl : choice' = choice := Option.some.inj (hchoice'.symm.trans hchoice)
    exact ⟨value, haction, by rw [hvalue, Option.map_some]⟩
  · rintro ⟨value, haction, ha⟩
    obtain ⟨n, hvalue, rfl⟩ := Option.map_eq_some_iff.1 ha
    exact ⟨hsrc, choice, value, n, hchoice, haction, hvalue, rfl⟩

variable {m : ChoiceMatrix} (hm : e.ChoicesFrom relation m)

include hm

/-- Every label is one for a choice that is there. -/
theorem exists_written : ∃ array, m.written labels = .ok array := by
  refine (grouped_of_choicesFrom hm).exists_written ?_
  rintro ⟨src, number, a⟩ hl
  obtain ⟨hsrc, choice, _, _, hchoice, _⟩ := (mem_labels hrelation hactions hlabels).1 hl
  exact exists_choiceRow_of_choicesFrom hm hsrc hchoice

variable {array : Array (Option Nat)} (h : m.written labels = .ok array)

include h

theorem choiceLabel_eq {src number choice : Nat} (hsrc : src < e.states.size)
    (hchoice : (e.choicesOf relation src)[number]? = some choice) :
    ({ m with labels := some array } : ChoiceMatrix).choiceLabel src number
      = .ok ((e.actionValue? actions src choice).bind fun value => value.toNat?.map (· - 1)) := by
  obtain ⟨row, hrow⟩ := exists_choiceRow_of_choicesFrom hm hsrc hchoice
  rw [(grouped_of_choicesFrom hm).choiceLabel_of_written h hrow,
    action?_labels hrelation hactions hlabels hsrc hchoice]

theorem labelled_of_written : e.Labelled relation actions { m with labels := some array } := by
  have hgrouped := (grouped_of_choicesFrom hm).of_labels (some array)
  refine ⟨fun src hsrc => ?_, fun src hsrc number choice value hchoice haction => ?_,
    fun src hsrc number choice hchoice hnone => ?_⟩
  · rw [hgrouped.numChoices_eq (by simpa using hsrc), List.getElem_map, List.getElem_range]
  · have hlt := lt_of_choicesOf hchoice
    have ht : ⟨src, choice, 0, value⟩ ∈ labelled :=
      (mem_expandChoices hactions).2 ⟨⟨hsrc, hlt, rfl⟩, haction⟩
    obtain ⟨n, hvalue, hpos, hbound⟩ := (labels_eq_of_labelsOf hlabels).1 _ ht
    refine ⟨n, hvalue, hpos, hbound, ?_⟩
    rw [choiceLabel_eq hrelation hactions hlabels hm h hsrc hchoice, haction, Option.bind_some,
      hvalue, Option.map_some]
  · rw [choiceLabel_eq hrelation hactions hlabels hm h hsrc hchoice, hnone, Option.bind_none]

end Labels

theorem mislabels_iff {actions : Relation} {labelled : List Transition}
    (hactions : (e.expandChoices (.ofPaths (actions.paths.map e.withoutCols))).result = .ok labelled)
    {value : Binary64} :
    e.Mislabels actions value ↔ ∃ t ∈ labelled, ¬ IsAction t.weight ∧ t.weight = value := by
  constructor
  · rintro ⟨src, hsrc, choice, hchoice, haction, hnot⟩
    exact ⟨⟨src, choice, 0, value⟩,
      (mem_expandChoices hactions).2 ⟨⟨hsrc, hchoice, rfl⟩, haction⟩, hnot, rfl⟩
  · rintro ⟨t, ht, hnot, rfl⟩
    obtain ⟨⟨hsrc, hchoice, _⟩, haction⟩ := (mem_expandChoices hactions).1 ht
    exact ⟨t.src, hsrc, t.choice, hchoice, haction, hnot⟩

/-- Labelling fails only at a value that is no action, if every variable carries a bit. -/
theorem mislabels_of_addActions {relation actions : Relation} {m : ChoiceMatrix} {err : Error}
    (hm : e.ChoicesFrom relation m) (hlocated : e.Located actions.paths)
    (h : (e.addActions relation actions).outcome m = .error err) :
    ∃ value, e.Mislabels actions value ∧ err = .invalidActionLabel value := by
  obtain ⟨transitions, hrelation⟩ := exists_expand_of_choicesFrom hm
  obtain ⟨hcheck, _⟩ := eq_distinct_of_expandTo hrelation
  obtain ⟨labelled, hactions⟩ := exists_expandTo (fun _ => [0]) hcheck (known_withoutCols hlocated)
  -- the expansions give their results, so that only what is made of these can fail
  have hexpanded : (e.labelsFor relation actions).result
      = (labelsOf (ChoiceNumbering.ofSorted transitions) labelled).result := by
    rw [labelsFor, Traced.result_bind, hrelation]
    show (e.expandChoices _ >>= _).result = _
    rw [Traced.result_bind, expandChoices, hactions]
    rfl
  cases hlabels : (labelsOf (ChoiceNumbering.ofSorted transitions) labelled).result with
  | error found =>
    have hfails : (LabelCall.ofRelation e relation actions).written m = .error found := by
      rw [LabelCall.written, LabelCall.labels, hexpanded, hlabels]
      rfl
    cases h.symm.trans (LabelCall.run_of_error hfails).1
    obtain ⟨t, ht, hnot, herr⟩ := exists_of_labelsOf_eq_error hlabels
    exact ⟨t.weight, (mislabels_iff hactions).2 ⟨t, ht, hnot, rfl⟩, herr⟩
  | ok labels =>
    obtain ⟨array, harray⟩ := exists_written hrelation hactions hlabels hm
    have hwritten : (LabelCall.ofRelation e relation actions).written m = .ok array :=
      LabelCall.written_eq_ok_iff.2 ⟨labels, hexpanded.trans hlabels, harray⟩
    cases h.symm.trans (LabelCall.run_of_ok hwritten).1

theorem addActions_of_not_mislabels {relation actions : Relation} {m : ChoiceMatrix}
    (hm : e.ChoicesFrom relation m) (hlocated : e.Located actions.paths)
    (hvalues : ∀ value, ¬ e.Mislabels actions value) :
    (e.addActions relation actions).outcome m = .ok () := by
  cases houtcome : (e.addActions relation actions).outcome m with
  | ok _ => rfl
  | error err =>
    obtain ⟨value, hmislabels, _⟩ := mislabels_of_addActions hm hlocated houtcome
    exact absurd hmislabels (hvalues value)

/-- Labels that are given to a matrix come from expansions that succeeded. -/
theorem exists_labelled_of_addActions {relation actions : Relation} {m : ChoiceMatrix}
    (h : (e.addActions relation actions).outcome m = .ok ()) :
    ∃ transitions labelled labels array, (e.expand relation).result = .ok transitions ∧
      (e.expandChoices (.ofPaths (actions.paths.map e.withoutCols))).result = .ok labelled ∧
      (labelsOf (ChoiceNumbering.ofSorted transitions) labelled).result = .ok labels ∧
      m.written labels = .ok array ∧
      (LabelCall.ofRelation e relation actions).written m = .ok array := by
  have hrun : (LabelCall.ofRelation e relation actions).run.outcome m = .ok () := h
  obtain ⟨array, hwritten⟩ := LabelCall.exists_written hrun
  obtain ⟨labels, hfor, harray⟩ := LabelCall.written_eq_ok_iff.1 hwritten
  obtain ⟨transitions, hrelation, hfor⟩ := Traced.result_bind_eq_ok_iff.1 hfor
  obtain ⟨labelled, hactions, hlabels⟩ := Traced.result_bind_eq_ok_iff.1 hfor
  exact ⟨transitions, labelled, labels, array, hrelation, hactions, hlabels, harray, hwritten⟩

/-- Labelling a matrix of a relation gives each choice the action of the first path that covers the
choice, whichever of the relation's matrices it is. It fails exactly if the first path for some
choice gives it a value that is no action, whether the model has that choice or not. -/
theorem labels_of_relation {relation : Relation} {m : ChoiceMatrix}
    (hm : e.ChoicesFrom relation m) (actions : Relation) :
    ((e.addActions relation actions).outcome m = .ok () →
      e.Labelled relation actions ((e.addActions relation actions).after m) ∧
      ∀ other, e.ChoicesFrom relation other →
        (e.addActions relation actions).outcome other = .ok () ∧
          ((e.addActions relation actions).after other).labels
            = ((e.addActions relation actions).after m).labels) ∧
    (e.Located actions.paths →
      ((∃ value, (e.addActions relation actions).outcome m = .error (.invalidActionLabel value)) ↔
        ∃ value, e.Mislabels actions value) ∧
      ∀ err, (e.addActions relation actions).outcome m = .error err →
        ∃ value, e.Mislabels actions value ∧ err = .invalidActionLabel value) := by
  refine ⟨fun h => ?_, fun hlocated => ⟨⟨?_, ?_⟩, fun err => mislabels_of_addActions hm hlocated⟩⟩
  · obtain ⟨transitions, labelled, labels, array, hrelation, hactions, hlabels, harray, hwritten⟩ :=
      exists_labelled_of_addActions h
    obtain ⟨_, hafter⟩ := LabelCall.run_of_ok hwritten
    change (e.addActions relation actions).after m = _ at hafter
    rw [hafter]
    refine ⟨labelled_of_written hrelation hactions hlabels hm harray, fun other hother => ?_⟩
    have hsame : other.written labels = m.written labels :=
      (grouped_of_choicesFrom hm).written_congr (grouped_of_choicesFrom hother)
    have hother' : (LabelCall.ofRelation e relation actions).written other = .ok array := by
      refine LabelCall.written_eq_ok_iff.2 ⟨labels, ?_, hsame.trans harray⟩
      exact Traced.result_bind_eq_ok_iff.2
        ⟨transitions, hrelation, Traced.result_bind_eq_ok_iff.2 ⟨labelled, hactions, hlabels⟩⟩
    obtain ⟨houtcome, hlabelled⟩ := LabelCall.run_of_ok hother'
    change (e.addActions relation actions).after other = _ at hlabelled
    rw [hlabelled]
    exact ⟨houtcome, rfl⟩
  · rintro ⟨value, h⟩
    obtain ⟨value', hmislabels, _⟩ := mislabels_of_addActions hm hlocated h
    exact ⟨value', hmislabels⟩
  · rintro ⟨value, hmislabels⟩
    cases houtcome : (e.addActions relation actions).outcome m with
    | error err =>
      obtain ⟨value', _, rfl⟩ := mislabels_of_addActions hm hlocated houtcome
      exact ⟨value', rfl⟩
    | ok _ =>
      obtain ⟨_, labelled, _, _, _, hactions, hlabels, _⟩ := exists_labelled_of_addActions houtcome
      obtain ⟨t, ht, hnot, _⟩ := (mislabels_iff hactions).1 hmislabels
      exact absurd ((labels_eq_of_labelsOf hlabels).1 t ht) hnot

/-- Two paths for the choice `0`, of which the first fixes a bit of the destination, too. -/
def named : Relation where
  paths := [⟨[(Variable.nth 2).pos, (Variable.nth 3).neg], ⟨0x4000000000000000⟩⟩,
    ⟨[(Variable.nth 3).neg], .one⟩]
  nonzero := by decide

/-- One half for the choice `0`. -/
def halved : Relation where
  paths := [⟨[(Variable.nth 3).neg], ⟨0x3fe0000000000000⟩⟩]
  nonzero := by decide

theorem located_of_isSome {paths : List Path}
    (h : ∀ path ∈ paths, ∀ l ∈ path.cube, (e.locate? l.var).isSome) : e.Located paths :=
  fun path hpath l hl => Option.isSome_iff_exists.1 (h path hpath l hl)

/-- The first state has the choice `1` only, so that the first label of the second state belongs to
its choice `0`. -/
theorem labels_of_guarded :
    ∃ m m' rewards,
      ((twoStates (some oneBit)).choiceMatrix guarded).result = .ok m ∧
      ((twoStates (some oneBit)).addActions guarded named).outcome m = .ok () ∧
      ((twoStates (some oneBit)).addActions guarded named).after m = m' ∧
      m'.choiceLabel 0 0 = .ok none ∧ m'.choiceLabel 1 0 = .ok (some 1) ∧
      m'.choiceLabel 1 1 = .ok none ∧
      ((twoStates (some oneBit)).rewardChoiceMatrix guarded arrival).result = .ok rewards ∧
      ((twoStates (some oneBit)).addActions guarded named).outcome rewards = .ok () ∧
      (((twoStates (some oneBit)).addActions guarded named).after rewards).labels = m'.labels ∧
      ∃ value, ((twoStates (some oneBit)).addActions guarded halved).outcome m
        = .error (.invalidActionLabel value) := by
  have he := storable_twoStates (show (twoStates (some oneBit)).check = _ from rfl)
  have hroomy := roomy_twoStates (show (twoStates (some oneBit)).choiceWidth ≤ 1 by decide)
  obtain ⟨m, hm⟩ := exists_choiceMatrix he hroomy known_guarded
  obtain ⟨rewards, hrewards⟩ := exists_rewardChoiceMatrix he hroomy known_guarded (known_arrival _)
  have hvalues : ∀ src < 2, ∀ choice < 2, (twoStates (some oneBit)).actionValue? named src choice
      = if choice = 0 then some ⟨0x4000000000000000⟩ else none := by decide
  have hactions : ∀ value, ¬ (twoStates (some oneBit)).Mislabels named value := by
    rintro value ⟨src, hsrc, choice, hchoice, hvalue, hnot⟩
    rw [hvalues src hsrc choice hchoice, Option.ite_none_right_eq_some] at hvalue
    obtain ⟨_, heq⟩ := hvalue
    cases heq
    exact hnot ⟨2, by decide⟩
  have hcall : ((twoStates (some oneBit)).addActions guarded named).outcome m = .ok () :=
    addActions_of_not_mislabels (Or.inl hm) (located_of_isSome (by decide)) hactions
  obtain ⟨hlabelled, _⟩ := labels_of_relation (Or.inl hm) named
  obtain ⟨⟨_, hlabel, hnone⟩, hothers⟩ := hlabelled hcall
  obtain ⟨hcall', hsame⟩ := hothers rewards (Or.inr ⟨arrival, hrewards⟩)
  obtain ⟨n, hn, _, _, hsecond⟩ := hlabel 1 (by decide) 0 0 ⟨0x4000000000000000⟩ (by decide) (by decide)
  obtain rfl : n = 2 := Option.some.inj (hn.symm.trans (by decide))
  obtain ⟨_, hhalved⟩ := labels_of_relation (Or.inl hm) halved
  obtain ⟨hiff, _⟩ := hhalved (located_of_isSome (by decide))
  refine ⟨m, _, rewards, hm, hcall, rfl, hnone 0 (by decide) 0 1 (by decide) (by decide),
    hsecond, hnone 1 (by decide) 1 1 (by decide) (by decide), hrewards, hcall', hsame,
    hiff.2 ⟨⟨0x3fe0000000000000⟩, 1, by decide, 0, by decide, by decide, ?_⟩⟩
  rintro ⟨n, hn, _⟩
  have hhalf : (⟨0x3fe0000000000000⟩ : Binary64).toNat? = none := by decide
  rw [hhalf] at hn
  cases hn

end Encoding

end TransitionMatrix
