import TransitionMatrix.Proofs.ChoiceMatrix.Outcome
import TransitionMatrix.Proofs.Symbolic.Build
import TransitionMatrix.Proofs.Symbolic.Contradictions

/-!
# Relations with unknown variables

A relation fails to be built because of an unknown variable exactly if gathering the literals of some
path comes to one. A contradiction ends a path before that, so that what stands behind it is not looked
at, and whether a build fails can depend on the order of literals. For relations without contradictory
paths it does not: an unknown variable is found wherever it stands.
-/

namespace TransitionMatrix

/-! ## Failing computations -/

namespace Traced

variable {α β : Type} {x : Traced α} {f : α → Traced β}

/-- The computation ends in an unknown variable. -/
def FailsUnknown (x : Traced α) : Prop := ∃ v, x.result = .error (.unknownVariable v)

theorem failsUnknown_bind_iff :
    (x >>= f).FailsUnknown ↔ x.FailsUnknown ∨ ∃ a, x.result = .ok a ∧ (f a).FailsUnknown := by
  simp only [FailsUnknown, result_bind_eq_error_iff]
  constructor
  · rintro ⟨v, hx | ⟨a, ha, hf⟩⟩
    · exact Or.inl ⟨v, hx⟩
    · exact Or.inr ⟨a, ha, v, hf⟩
  · rintro (⟨v, hx⟩ | ⟨a, ha, v, hf⟩)
    · exact ⟨v, Or.inl hx⟩
    · exact ⟨v, Or.inr ⟨a, ha, hf⟩⟩

theorem failsUnknown_bind_of_not (hf : ∀ a, ¬ (f a).FailsUnknown) :
    (x >>= f).FailsUnknown ↔ x.FailsUnknown := by
  rw [failsUnknown_bind_iff]
  refine or_iff_left ?_
  rintro ⟨a, _, hfails⟩
  exact hf a hfails

end Traced

namespace Encoding

variable {e : Encoding} {relation rewards : Relation}

/-! ## Paths -/

/-- Some path comes to an unknown variable. -/
def FindsUnknown (e : Encoding) (relation : Relation) : Prop :=
  ∃ path ∈ relation.paths, e.ReachesUnknown path.cube

/-- The literals of some path mention an unknown variable, wherever it stands. -/
def MentionsUnknown (e : Encoding) (relation : Relation) : Prop :=
  ∃ path ∈ relation.paths, ∃ l ∈ path.cube, e.Unknown l.var

/-- No path fixes a bit to both values. -/
def Consistent (e : Encoding) (relation : Relation) : Prop :=
  ∀ path ∈ relation.paths, ¬ e.Contradicts path.cube

/-- The paths of the relations have the same literals, in whatever order. -/
def Reordered (relation relation' : Relation) : Prop :=
  List.Forall₂ (fun path path' => path.cube.Perm path'.cube) relation.paths relation'.paths

theorem findsUnknown_iff (h : e.Consistent relation) :
    e.FindsUnknown relation ↔ e.MentionsUnknown relation :=
  exists_congr fun path => and_congr_right fun hpath => reachesUnknown_iff (h path hpath)

namespace Reordered

variable {relation' : Relation} (h : Reordered relation relation')

include h

theorem symm : Reordered relation' relation :=
  List.Forall₂.flip (h.imp fun _ _ hperm => hperm.symm)

theorem exists_mem {path : Path} (hpath : path ∈ relation.paths) :
    ∃ path' ∈ relation'.paths, path.cube.Perm path'.cube := by
  obtain ⟨i, hi, rfl⟩ := List.mem_iff_getElem.1 hpath
  have hi' : i < relation'.paths.length := h.length_eq ▸ hi
  exact ⟨relation'.paths[i], List.getElem_mem hi', h.get hi hi'⟩

theorem mentionsUnknown (hmentions : e.MentionsUnknown relation) : e.MentionsUnknown relation' := by
  obtain ⟨path, hpath, l, hl, hunknown⟩ := hmentions
  obtain ⟨path', hpath', hperm⟩ := h.exists_mem hpath
  exact ⟨path', hpath', l, hperm.subset hl, hunknown⟩

theorem consistent (hconsistent : e.Consistent relation) : e.Consistent relation' := by
  intro path' hpath' hcontradicts
  obtain ⟨path, hpath, hperm⟩ := h.symm.exists_mem hpath'
  exact hconsistent path hpath (hcontradicts.mono hperm.subset)

end Reordered

theorem not_known_iff : ¬ e.Known relation.paths ↔ e.FindsUnknown relation := by
  simp only [Known, FindsUnknown, not_forall, exists_prop]
  refine exists_congr fun path => and_congr_right fun _ => ?_
  rw [← exists_patterns_eq_error_iff]
  cases e.patterns path.cube with
  | error err => simp
  | ok p? => simp

/-! ## Expanding -/

/-- Unknown variables are all that the paths of a relation can fail for. -/
theorem error_of_expandPaths {destinations : CubePattern → List Nat} {paths : List Path} {err : Error}
    (h : (e.expandPaths destinations paths).result = .error err) : ∃ v, err = .unknownVariable v := by
  induction paths with
  | nil => cases h
  | cons path rest ih =>
    rcases Traced.result_bind_eq_error_iff.1 h with hpath | ⟨p?, _, h⟩
    · exact error_of_patterns hpath
    · cases p? with
      | none =>
        rcases Traced.result_bind_eq_error_iff.1 h with hemit | ⟨_, _, h⟩
        · cases hemit
        · exact ih h
      | some p =>
        rcases Traced.result_bind_eq_error_iff.1 h with h | ⟨_, _, hreturn⟩
        · exact ih h
        · cases hreturn

theorem error_of_expandTo {destinations : CubePattern → List Nat} (hcheck : e.check = .ok ())
    {err : Error} (h : (e.expandTo destinations relation).result = .error err) :
    ∃ v, err = .unknownVariable v := by
  rcases Traced.result_bind_eq_error_iff.1 h with hother | ⟨_, _, h⟩
  · cases hcheck.symm.trans hother
  rcases Traced.result_bind_eq_error_iff.1 h with hpaths | ⟨raw, _, h⟩
  · exact error_of_expandPaths hpaths
  dsimp only at h
  split at h
  · rcases Traced.result_bind_eq_error_iff.1 h with hemit | ⟨_, _, hreturn⟩
    · cases hemit
    · cases hreturn
  · cases h

theorem failsUnknown_expandTo_iff {destinations : CubePattern → List Nat}
    (hcheck : e.check = .ok ()) :
    (e.expandTo destinations relation).FailsUnknown ↔ e.FindsUnknown relation := by
  rw [← not_known_iff]
  constructor
  · rintro ⟨v, hv⟩ hknown
    obtain ⟨ts, hts⟩ := exists_expandTo destinations hcheck hknown
    cases hts.symm.trans hv
  · intro hunknown
    cases hresult : (e.expandTo destinations relation).result with
    | ok ts =>
      obtain ⟨_, _, hraw, _⟩ := eq_distinct_of_expandTo hresult
      exact absurd (known_of_expandPaths hraw) hunknown
    | error err =>
      obtain ⟨v, rfl⟩ := error_of_expandTo hcheck hresult
      exact ⟨v, hresult⟩

theorem failsUnknown_reward_iff (hcheck : e.check = .ok ()) {transitions : List Transition} :
    (e.reward transitions rewards).FailsUnknown ↔ e.FindsUnknown rewards := by
  refine (Traced.failsUnknown_bind_of_not fun ts => ?_).trans (failsUnknown_expandTo_iff hcheck)
  rintro ⟨v, hv⟩
  cases hv

/-- What comes after the expansion of a relation is come to, unless the relation has an unknown
variable. -/
theorem failsUnknown_expand_bind_iff {α : Type} {f : List Transition → Traced α}
    (hcheck : e.check = .ok ()) {P : Prop} (hf : ∀ ts, (f ts).FailsUnknown ↔ P) :
    (e.expand relation >>= f).FailsUnknown ↔ e.FindsUnknown relation ∨ P := by
  rw [Traced.failsUnknown_bind_iff, expand, failsUnknown_expandTo_iff hcheck]
  constructor
  · rintro (hrelation | ⟨ts, _, hrest⟩)
    · exact Or.inl hrelation
    · exact Or.inr ((hf ts).1 hrest)
  · rintro (hrelation | hrest)
    · exact Or.inl hrelation
    · by_cases hknown : e.Known relation.paths
      · obtain ⟨ts, hts⟩ := exists_expandTo e.destinations hcheck hknown
        exact Or.inr ⟨ts, hts, (hf ts).2 hrest⟩
      · exact Or.inl (not_known_iff.1 hknown)

/-! ## Building -/

theorem not_failsUnknown_store {transitions : List Transition} :
    ¬ (e.store transitions).FailsUnknown := by
  rintro ⟨v, hv⟩
  rw [result_store] at hv
  rcases Matrix.ofLimits_of_rectangular hv with hlimits | ⟨entry, _, hfault⟩
  · exact hlimits
  · obtain ⟨_, _, herr⟩ := hfault.exists_eq
    cases herr

theorem not_failsUnknown_storeChoices {grouping transitions : List Transition} :
    ¬ (e.storeChoices grouping transitions).FailsUnknown := by
  rintro ⟨v, hv⟩
  rcases Traced.result_bind_eq_error_iff.1 hv with hroom | ⟨_, _, hv⟩
  · cases (Reservation.request_eq_error_iff.1 hroom).2
  rcases ChoiceMatrix.ofLimits_of_ofGroups hv with
    hlimits | ⟨entry, _, ⟨_, herr⟩ | ⟨_, _, herr⟩⟩ | ⟨entry, _, hfault⟩
  · exact hlimits
  · cases herr
  · cases herr
  · obtain ⟨_, _, herr⟩ := hfault.exists_eq
    cases herr

section Check

variable (hcheck : e.check = .ok ())

include hcheck

theorem failsUnknown_matrix_iff : (e.matrix relation).FailsUnknown ↔ e.FindsUnknown relation :=
  (Traced.failsUnknown_bind_of_not fun _ => not_failsUnknown_store).trans
    (failsUnknown_expandTo_iff hcheck)

theorem failsUnknown_choiceMatrix_iff :
    (e.choiceMatrix relation).FailsUnknown ↔ e.FindsUnknown relation :=
  (Traced.failsUnknown_bind_of_not fun _ => not_failsUnknown_storeChoices).trans
    (failsUnknown_expandTo_iff hcheck)

theorem failsUnknown_rewardMatrix_iff : (e.rewardMatrix relation rewards).FailsUnknown ↔
    e.FindsUnknown relation ∨ e.FindsUnknown rewards :=
  failsUnknown_expand_bind_iff hcheck fun _ =>
    (Traced.failsUnknown_bind_of_not fun _ => not_failsUnknown_store).trans
      (failsUnknown_reward_iff hcheck)

theorem failsUnknown_rewardChoiceMatrix_iff :
    (e.rewardChoiceMatrix relation rewards).FailsUnknown ↔
      e.FindsUnknown relation ∨ e.FindsUnknown rewards :=
  failsUnknown_expand_bind_iff hcheck fun _ =>
    (Traced.failsUnknown_bind_of_not fun _ => not_failsUnknown_storeChoices).trans
      (failsUnknown_reward_iff hcheck)

end Check

/-- A literal that is unknown behind two that contradict each other. -/
def masked : Relation where
  paths := [⟨[(Variable.nth 0).pos, (Variable.nth 0).neg, (Variable.nth 8).pos], .one⟩]
  nonzero := by decide

/-- The same literals, with the unknown one in front. -/
def unmasked : Relation where
  paths := [⟨[(Variable.nth 8).pos, (Variable.nth 0).pos, (Variable.nth 0).neg], .one⟩]
  nonzero := by decide

theorem unknown_nth_eight : (twoStates none).Unknown (Variable.nth 8) := locate?_eq_none_iff.1 rfl

theorem reordered_masked : Reordered masked unmasked :=
  .cons (List.perm_append_singleton _ [_, _]) .nil

theorem known_masked : (twoStates none).Known masked.paths := by
  simp only [Known, masked, List.forall_mem_cons]
  exact ⟨⟨none, rfl⟩, by simp⟩

theorem findsUnknown_unmasked : (twoStates none).FindsUnknown unmasked :=
  ⟨_, List.mem_cons_self, [], _, _, rfl, unknown_nth_eight, by simp [Contradicts]⟩

/-- Where the orders agree, all builds fail for an unknown variable exactly if some path of a given
relation comes to one. The variable is then one that the relation mentions, and if no path contradicts
itself, every variable that it mentions is come to, in whatever order the literals stand. -/
theorem failsUnknown_of_relation (hcheck : e.check = .ok ()) :
    (∀ relation,
      ((e.matrix relation).FailsUnknown ↔ e.FindsUnknown relation) ∧
      ((e.choiceMatrix relation).FailsUnknown ↔ e.FindsUnknown relation) ∧
      ∀ rewards,
        ((e.rewardMatrix relation rewards).FailsUnknown ↔
          e.FindsUnknown relation ∨ e.FindsUnknown rewards) ∧
        ((e.rewardChoiceMatrix relation rewards).FailsUnknown ↔
          e.FindsUnknown relation ∨ e.FindsUnknown rewards)) ∧
    ∀ relation,
      (e.FindsUnknown relation → e.MentionsUnknown relation) ∧
      (e.Consistent relation →
        (e.FindsUnknown relation ↔ e.MentionsUnknown relation) ∧
        ∀ relation', Reordered relation relation' →
          (e.FindsUnknown relation' ↔ e.FindsUnknown relation)) := by
  refine ⟨fun relation => ⟨failsUnknown_matrix_iff hcheck, failsUnknown_choiceMatrix_iff hcheck,
    fun rewards => ⟨failsUnknown_rewardMatrix_iff hcheck,
      failsUnknown_rewardChoiceMatrix_iff hcheck⟩⟩, fun relation => ⟨?_, fun hconsistent => ?_⟩⟩
  · rintro ⟨path, hpath, hreaches⟩
    exact ⟨path, hpath, hreaches.exists_unknown⟩
  · refine ⟨findsUnknown_iff hconsistent, fun relation' hreordered => ?_⟩
    rw [findsUnknown_iff hconsistent, findsUnknown_iff (hreordered.consistent hconsistent)]
    exact ⟨hreordered.symm.mentionsUnknown, hreordered.mentionsUnknown⟩

theorem failsUnknown_of_unmasked :
    ((twoStates none).matrix unmasked).FailsUnknown ∧
    ((twoStates none).rewardChoiceMatrix overlapping unmasked).FailsUnknown ∧
    ¬ ((twoStates none).choiceMatrix overlapping).FailsUnknown := by
  obtain ⟨hbuilds, _⟩ := failsUnknown_of_relation (show (twoStates none).check = .ok () from rfl)
  obtain ⟨hmatrix, _, _⟩ := hbuilds unmasked
  obtain ⟨_, hchoices, hrewards⟩ := hbuilds overlapping
  refine ⟨hmatrix.2 findsUnknown_unmasked, (hrewards unmasked).2.2 (Or.inr findsUnknown_unmasked), ?_⟩
  rw [hchoices, ← not_known_iff, not_not]
  exact known_overlapping

/-- Two literals that contradict each other hide an unknown variable behind them: the matrix is built,
and it no longer is when the same literals come in another order. -/
theorem matrix_of_masked :
    (twoStates none).check = .ok () ∧ (twoStates none).MentionsUnknown masked ∧
    (∃ m, ((twoStates none).matrix masked).result = .ok m) ∧
    Reordered masked unmasked ∧ ((twoStates none).matrix unmasked).FailsUnknown := by
  refine ⟨rfl, ⟨_, List.mem_cons_self, (Variable.nth 8).pos, by simp, unknown_nth_eight⟩, ?_,
    reordered_masked, (failsUnknown_matrix_iff rfl).2 findsUnknown_unmasked⟩
  exact exists_matrix (storable_twoStates rfl) (roomy_twoStates (by decide)) known_masked

end Encoding

end TransitionMatrix
