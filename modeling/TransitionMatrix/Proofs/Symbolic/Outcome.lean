import TransitionMatrix.Proofs.ChoiceMatrix.Outcome
import TransitionMatrix.Proofs.Symbolic.Rewards
import TransitionMatrix.Proofs.Symbolic.Unknown

/-!
# When a matrix of a relation can be built

The indices that a relation is expanded into are worked out and not given, so the checks that reject
bad indices never apply to them: sources and destinations are states, and every transition finds the
number of its choice among the choices that were counted. What is left are the orders, which are
compared before anything else, unknown variables, and limits.
-/

namespace TransitionMatrix

namespace Encoding

variable {e : Encoding} {relation rewards : Relation}

/-! ## The orders -/

/-- Two orders, or an order and the state space, differ in their number of bits, or a choice has more
than 63. -/
def OrdersDisagree (e : Encoding) : Prop :=
  e.cols.length ≠ e.rows.length ∨ e.states.numBits ≠ e.rows.length ∨
    ∃ order, e.choices = some order ∧ 63 < order.length

theorem lt_choiceWidth_iff :
    63 < e.choiceWidth ↔ ∃ order, e.choices = some order ∧ 63 < order.length := by
  unfold choiceWidth
  cases e.choices with
  | none => simp
  | some order => simp

theorem check_iff_not_ordersDisagree : e.check = .ok () ↔ ¬ e.OrdersDisagree := by
  rw [check_eq_ok_iff, OrdersDisagree, ← lt_choiceWidth_iff]
  omega

theorem exists_of_check {err : Error} (h : e.check = .error err) :
    ∃ expected found, err = .orderingMismatch expected found := by
  unfold check at h
  split at h
  · cases h
    exact ⟨_, _, rfl⟩
  split at h
  · cases h
    exact ⟨_, _, rfl⟩
  split at h
  · cases h
    exact ⟨_, _, rfl⟩
  · cases h

/-! ## What a build can end with -/

/-- The build ends as the orders and the limits allow it to: the indices that it works out are never
rejected, the orders are compared first, and it succeeds where they agree, all variables are known and
no limit is exceeded. -/
structure Outcome {α : Type} (e : Encoding) (relations : List Relation) (x : Traced α) : Prop where
  ne_stateOutOfRange : ∀ state numStates, x.result ≠ .error (.stateOutOfRange state numStates)
  ne_choiceOutOfRange : ∀ state choice numChoices,
    x.result ≠ .error (.choiceOutOfRange state choice numChoices)
  ne_inconsistentIndex : ∀ expected found, x.result ≠ .error (.inconsistentIndex expected found)
  ne_invalidActionLabel : ∀ value, x.result ≠ .error (.invalidActionLabel value)
  mismatch_iff : (∃ expected found, x.result = .error (.orderingMismatch expected found)) ↔
    e.OrdersDisagree
  exists_ok : ¬ e.OrdersDisagree → (∀ relation ∈ relations, ¬ e.MentionsUnknown relation) →
    2 ≤ e.options.columnBits ∧ e.options.columnBits ≤ 32 → e.options.rowEncoding ≠ .counts →
    e.states.size ≤ 4294967295 → x.Allocates → ∃ a, x.result = .ok a

/-- The orders are compared before anything else, and after that only unknown variables and limits
can end the build. -/
structure ChecksOrders {α : Type} (e : Encoding) (x : Traced α) : Prop where
  error_of_check : ∀ err, e.check = .error err → x.result = .error err
  cases_of_error : e.check = .ok () → ∀ err, x.result = .error err →
    (∃ v, err = .unknownVariable v) ∨ err.OfLimits

theorem ChecksOrders.outcome {α : Type} {relations : List Relation} {x : Traced α}
    (hx : e.ChecksOrders x) (hok : e.Storable → (∀ relation ∈ relations, e.Known relation.paths) →
      x.Allocates → ∃ a, x.result = .ok a) : e.Outcome relations x := by
  have hcases : ∀ err, x.result = .error err →
      (∃ expected found, err = .orderingMismatch expected found) ∨
        (∃ v, err = .unknownVariable v) ∨ err.OfLimits := by
    intro err herr
    cases hcheck : e.check with
    | ok _ => exact Or.inr (hx.cases_of_error hcheck err herr)
    | error err' =>
      obtain ⟨expected, found, rfl⟩ := exists_of_check hcheck
      have heq := (hx.error_of_check _ hcheck).symm.trans herr
      cases heq
      exact Or.inl ⟨expected, found, rfl⟩
  constructor
  · intro state numStates h
    simpa [Error.OfLimits] using hcases _ h
  · intro state choice numChoices h
    simpa [Error.OfLimits] using hcases _ h
  · intro expected found h
    simpa [Error.OfLimits] using hcases _ h
  · intro value h
    simpa [Error.OfLimits] using hcases _ h
  · constructor
    · rintro ⟨expected, found, h⟩
      by_contra hagree
      rcases hx.cases_of_error (check_iff_not_ordersDisagree.2 hagree) _ h with ⟨_, hother⟩ | hlimits
      · cases hother
      · exact hlimits
    · intro hdisagree
      cases hcheck : e.check with
      | ok _ => exact absurd hdisagree (check_iff_not_ordersDisagree.1 hcheck)
      | error err =>
        obtain ⟨expected, found, rfl⟩ := exists_of_check hcheck
        exact ⟨expected, found, hx.error_of_check _ hcheck⟩
  · intro hagree hknown hwidth hencoding hstates hmemory
    have hlimit : Matrix.maxStates < Reservation.limit := by decide
    refine hok ⟨check_iff_not_ordersDisagree.2 hagree, if_pos hwidth, hstates,
      Nat.lt_of_le_of_lt hstates hlimit, hencoding⟩ ?_ hmemory
    intro relation hrelation
    by_contra hunknown
    obtain ⟨path, hpath, hreaches⟩ := not_known_iff.1 hunknown
    exact hknown relation hrelation ⟨path, hpath, hreaches.exists_unknown⟩

theorem ChecksOrders.of_expand_bind {α : Type} {f : List Transition → Traced α}
    (hf : ∀ ts, (e.expand relation).result = .ok ts → ∀ err, (f ts).result = .error err →
      (∃ v, err = .unknownVariable v) ∨ err.OfLimits) :
    e.ChecksOrders (e.expand relation >>= f) := by
  constructor
  · intro err hcheck
    refine Traced.result_bind_eq_error_iff.2 (Or.inl ?_)
    exact Traced.result_bind_eq_error_iff.2 (Or.inl hcheck)
  · intro hcheck err h
    rcases Traced.result_bind_eq_error_iff.1 h with hexpand | ⟨ts, hts, hrest⟩
    · exact Or.inl (error_of_expandTo hcheck hexpand)
    · exact hf ts hts err hrest

/-! ## Storing -/

section Store

variable {numChoices : Nat} {weight? reward? : Nat → Nat → Nat → Option Binary64}

/-- The entries of a table have no fault. -/
theorem ofLimits_of_store {err : Error}
    (h : (e.store (Transition.table e.states.size numChoices weight?)).result = .error err) :
    err.OfLimits := by
  rw [result_store] at h
  rcases Matrix.ofLimits_of_rectangular h with hlimits | ⟨entry, hentry, hfault⟩
  · exact hlimits
  · have hrange := Transition.inRange_table e.states.size numChoices weight? entry hentry
    exact absurd hfault (Entry.not_fault_iff.2 hrange err)

theorem dst_lt_of_mem_entries {entry : ChoiceEntry}
    (hentry : entry ∈ ChoiceNumbering.entries e.states.size numChoices weight? reward?) :
    entry.dst < ((List.range e.states.size).map fun src =>
      (ChoiceNumbering.used e.states.size numChoices weight? src).length).length := by
  obtain ⟨_, _, _, hlt, _⟩ := ChoiceNumbering.mem_entries hentry
  simpa using hlt

theorem ofLimits_of_storeChoices {err : Error}
    (h : (e.storeChoices (Transition.table e.states.size numChoices weight?)
      (Transition.table e.states.size numChoices reward?)).result = .error err) : err.OfLimits := by
  rcases Traced.result_bind_eq_error_iff.1 h with hroom | ⟨_, hroom, h⟩
  · exact Reservation.Unavailable.ofLimits (Reservation.request_eq_error_iff.1 hroom)
  dsimp only at h
  rw [ChoiceNumbering.counts_table] at h
  refine ChoiceMatrix.ofLimits_of_ofGroups_of_inRange (Reservation.lt_size_of_lt_limit ?_)
    ChoiceNumbering.inRange_entries (fun _ => dst_lt_of_mem_entries) h
  exact Nat.lt_of_le_of_lt ChoiceNumbering.sum_length_used_le (Reservation.request_eq_ok_iff.1 hroom)

theorem exists_store_of_allocates (he : e.Storable)
    (hmemory : (e.store (Transition.table e.states.size numChoices weight?)).Allocates) :
    ∃ m, (e.store (Transition.table e.states.size numChoices weight?)).result = .ok m := by
  have hwidth := Options.check_eq_ok_iff.1 he.options
  rw [Traced.Allocates, result_store] at hmemory
  rw [result_store]
  exact (Matrix.exists_ofEntries_iff_of_allocates hmemory).2 ⟨hwidth, he.size_le,
    Transition.inRange_table e.states.size numChoices weight?,
    fun hcounts => absurd hcounts he.rowEncoding⟩

theorem exists_storeChoices_of_allocates (he : e.Storable)
    (hmemory : (e.storeChoices (Transition.table e.states.size numChoices weight?)
      (Transition.table e.states.size numChoices reward?)).Allocates) :
    ∃ m, (e.storeChoices (Transition.table e.states.size numChoices weight?)
      (Transition.table e.states.size numChoices reward?)).result = .ok m := by
  have hroom : (Transition.table e.states.size numChoices weight?).length < Reservation.limit := by
    by_contra hlength
    have hrequest : Reservation.transitions.request
        (Transition.table e.states.size numChoices weight?).length = .error (.outOfMemory .transitions
          (Transition.table e.states.size numChoices weight?).length) :=
      Reservation.request_eq_error_iff.2 ⟨Nat.le_of_not_lt hlength, rfl⟩
    exact hmemory _ _ (Traced.result_bind_eq_error_iff.2 (Or.inl hrequest))
  have hfit := Nat.lt_of_le_of_lt ChoiceNumbering.sum_length_used_le hroom
  have hgroups : (ChoiceMatrix.ofGroups ((List.range e.states.size).map fun src =>
      (ChoiceNumbering.used e.states.size numChoices weight? src).length)
      (ChoiceNumbering.entries e.states.size numChoices weight? reward?) e.options).Allocates := by
    intro what length h
    rw [← ChoiceNumbering.counts_table] at h
    exact hmemory what length (Traced.result_bind_eq_error_iff.2
      (Or.inr ⟨(), Reservation.request_eq_ok_iff.2 hroom, h⟩))
  obtain ⟨m, hm⟩ :=
    (ChoiceMatrix.exists_ofGroups_iff (Reservation.lt_size_of_lt_limit hfit) hgroups).2
      ⟨ChoiceNumbering.inRange_entries, fun hcounts => absurd hcounts he.rowEncoding,
        Options.check_eq_ok_iff.1 he.options, by simpa using he.size_le,
        fun _ => dst_lt_of_mem_entries, fun hcounts => absurd hcounts he.rowEncoding⟩
  rw [← ChoiceNumbering.counts_table] at hm
  exact ⟨m, storeChoices_eq_ok_iff.2 ⟨hroom, hm⟩⟩

end Store

/-! ## The four builds -/

theorem error_of_reward (hcheck : e.check = .ok ()) {transitions : List Transition} {err : Error}
    (h : (e.reward transitions rewards).result = .error err) : ∃ v, err = .unknownVariable v := by
  rcases Traced.result_bind_eq_error_iff.1 h with hexpand | ⟨ts, _, h⟩
  · exact error_of_expandTo hcheck hexpand
  rcases Traced.result_bind_eq_error_iff.1 h with hemit | ⟨_, _, hreturn⟩
  · cases hemit
  · cases hreturn

theorem outcome_matrix (e : Encoding) (relation : Relation) :
    e.Outcome [relation] (e.matrix relation) := by
  refine ChecksOrders.outcome (ChecksOrders.of_expand_bind fun ts hts err h => ?_)
    fun he hknown hmemory => ?_
  · rw [expand_eq hts] at h
    exact Or.inr (ofLimits_of_store h)
  · obtain ⟨ts, hts⟩ := exists_expandTo e.destinations he.check (hknown relation List.mem_cons_self)
    have hresult : (e.matrix relation).result = (e.store ts).result := Traced.result_bind_of_ok hts
    rw [Traced.Allocates, hresult, expand_eq hts] at hmemory
    rw [hresult, expand_eq hts]
    exact exists_store_of_allocates he hmemory

theorem outcome_choiceMatrix (e : Encoding) (relation : Relation) :
    e.Outcome [relation] (e.choiceMatrix relation) := by
  refine ChecksOrders.outcome (ChecksOrders.of_expand_bind fun ts hts err h => ?_)
    fun he hknown hmemory => ?_
  · rw [expand_eq hts] at h
    exact Or.inr (ofLimits_of_storeChoices h)
  · obtain ⟨ts, hts⟩ := exists_expandTo e.destinations he.check (hknown relation List.mem_cons_self)
    have hresult : (e.choiceMatrix relation).result = (e.storeChoices ts ts).result :=
      Traced.result_bind_of_ok hts
    rw [Traced.Allocates, hresult, expand_eq hts] at hmemory
    rw [hresult, expand_eq hts]
    exact exists_storeChoices_of_allocates he hmemory

/-- What is made of the rewards of a relation's transitions. -/
theorem exists_result_of_reward (he : e.Storable)
    (hknown : ∀ relation' ∈ [relation, rewards], e.Known relation'.paths) {α : Type}
    (f : List Transition → List Transition → Traced α) :
    ∃ ts kept, (e.expand relation).result = .ok ts ∧ (e.reward ts rewards).result = .ok kept ∧
      (e.expand relation >>= fun ts => e.reward ts rewards >>= fun kept => f ts kept).result
        = (f ts kept).result := by
  obtain ⟨ts, hts⟩ := exists_expandTo e.destinations he.check (hknown relation List.mem_cons_self)
  obtain ⟨kept, hkept⟩ := exists_reward he.check
    (hknown rewards (List.mem_cons_of_mem _ List.mem_cons_self)) ts
  exact ⟨ts, kept, hts, hkept,
    (Traced.result_bind_of_ok hts).trans (Traced.result_bind_of_ok hkept)⟩

theorem outcome_rewardMatrix (e : Encoding) (relation rewards : Relation) :
    e.Outcome [relation, rewards] (e.rewardMatrix relation rewards) := by
  refine ChecksOrders.outcome (ChecksOrders.of_expand_bind fun ts hts err h => ?_)
    fun he hknown hmemory => ?_
  · rcases Traced.result_bind_eq_error_iff.1 h with hreward | ⟨kept, hkept, h⟩
    · obtain ⟨hcheck, _⟩ := eq_distinct_of_expandTo hts
      exact Or.inl (error_of_reward hcheck hreward)
    · rw [reward_eq hts hkept] at h
      exact Or.inr (ofLimits_of_store h)
  · obtain ⟨ts, kept, hts, hkept, hresult⟩ :=
      exists_result_of_reward he hknown fun _ kept => e.store kept
    change (e.rewardMatrix relation rewards).result = _ at hresult
    rw [Traced.Allocates, hresult, reward_eq hts hkept] at hmemory
    rw [hresult, reward_eq hts hkept]
    exact exists_store_of_allocates he hmemory

theorem outcome_rewardChoiceMatrix (e : Encoding) (relation rewards : Relation) :
    e.Outcome [relation, rewards] (e.rewardChoiceMatrix relation rewards) := by
  refine ChecksOrders.outcome (ChecksOrders.of_expand_bind fun ts hts err h => ?_)
    fun he hknown hmemory => ?_
  · rcases Traced.result_bind_eq_error_iff.1 h with hreward | ⟨kept, hkept, h⟩
    · obtain ⟨hcheck, _⟩ := eq_distinct_of_expandTo hts
      exact Or.inl (error_of_reward hcheck hreward)
    · rw [reward_eq hts hkept, expand_eq hts] at h
      exact Or.inr (ofLimits_of_storeChoices h)
  · obtain ⟨ts, kept, hts, hkept, hresult⟩ :=
      exists_result_of_reward he hknown fun ts kept => e.storeChoices ts kept
    change (e.rewardChoiceMatrix relation rewards).result = _ at hresult
    rw [Traced.Allocates, hresult, reward_eq hts hkept, expand_eq hts] at hmemory
    rw [hresult, reward_eq hts hkept, expand_eq hts]
    exact exists_storeChoices_of_allocates he hmemory

/-! ## Places -/

/-- Every place that is looked at while a relation is expanded is there, and bits are those of a
64-bit word. -/
structure ExpandsInBounds (e : Encoding) : Prop where
  bit_lt : ∀ v component bit, e.locate? v = some (component, bit) → bit < component.width e
  width_le : ∀ component : Component, component.width e ≤ 63
  leadingOnes_le : ∀ mask,
    StateSpace.leadingOnes mask e.states.numBits ≤ e.states.numBits ∧ e.states.numBits ≤ 63
  range_le : ∀ fixed value, (e.states.agreeing fixed value).lo ≤ (e.states.agreeing fixed value).hi ∧
    (e.states.agreeing fixed value).hi ≤ e.states.size

theorem expandsInBounds (h : ¬ e.OrdersDisagree) : e.ExpandsInBounds :=
  ⟨fun _ _ _ => locate?_lt, width_le_of_check (check_iff_not_ordersDisagree.2 h),
    fun _ => ⟨StateSpace.leadingOnes_le _ _, e.states.numBits_le⟩,
    fun _ _ => ⟨StateSpace.lo_agreeing_le_hi _ _, StateSpace.hi_agreeing_le _ _⟩⟩

/-- Every place that is looked at while transitions are stored as entries is there. -/
def StoresInBounds (e : Encoding) (transitions : List Transition) : Prop :=
  Matrix.InRange e.states.size e.states.size (transitions.map Transition.toEntry) ∧
    Matrix.StoredInBounds e.states.size e.states.size (transitions.map Transition.toEntry) e.options

/-- Every place that is looked at while transitions are stored under the choices of others is there. -/
structure GroupsInBounds (e : Encoding) (grouping transitions : List Transition) : Prop where
  /-- Every transition finds the number of its choice. -/
  numbered : ∀ t ∈ transitions,
    ∃ number, (ChoiceNumbering.ofSorted grouping).number? t.src t.choice = some number
  /-- Choices are counted for states that are there. -/
  state_lt : ∀ src choice number,
    (ChoiceNumbering.ofSorted grouping).number? src choice = some number → src < e.states.size
  /-- There are no more choices than transitions. -/
  sum_le : ((ChoiceNumbering.ofSorted grouping).counts e.states.size).sum ≤ grouping.length
  /-- The numbers of choices add up to a word, if the transitions can be had. -/
  total_eq : grouping.length < Reservation.limit →
    Word.sum 0 ((ChoiceNumbering.ofSorted grouping).counts e.states.size)
      = ((ChoiceNumbering.ofSorted grouping).counts e.states.size).sum
  /-- Every number is one of those that were counted. -/
  inRange : ChoiceEntry.InRange ((ChoiceNumbering.ofSorted grouping).counts e.states.size)
    (transitions.filterMap (Transition.toChoiceEntry? (ChoiceNumbering.ofSorted grouping)))
  /-- The rows of the choices are stored without looking beyond the ends of arrays. -/
  stored : Matrix.StoredInBounds ((ChoiceNumbering.ofSorted grouping).counts e.states.size).sum
    ((ChoiceNumbering.ofSorted grouping).counts e.states.size).length
    ((transitions.filterMap (Transition.toChoiceEntry? (ChoiceNumbering.ofSorted grouping))).map
      (ChoiceEntry.toEntry
        (RowSpans.ofLengths ((ChoiceNumbering.ofSorted grouping).counts e.states.size)))) e.options

section Places

variable (numChoices : Nat) {weight? reward? : Nat → Nat → Nat → Option Binary64}

theorem storesInBounds :
    e.StoresInBounds (Transition.table e.states.size numChoices weight?) := by
  have hrange := Transition.inRange_table e.states.size numChoices weight?
  exact ⟨hrange, Matrix.storedInBounds hrange e.options⟩

theorem groupsInBounds (h : ChoiceNumbering.Among reward? weight?) :
    e.GroupsInBounds (Transition.table e.states.size numChoices weight?)
      (Transition.table e.states.size numChoices reward?) := by
  constructor
  · intro t ht
    exact ChoiceNumbering.exists_number h ht
  · intro src choice number hnumber
    exact (ChoiceNumbering.number?_table.1 hnumber).1
  · rw [ChoiceNumbering.counts_table]
    exact ChoiceNumbering.sum_length_used_le
  · intro hroom
    rw [ChoiceNumbering.counts_table]
    refine Word.sum_eq_iff.2 (Reservation.lt_size_of_lt_limit ?_)
    exact Nat.lt_of_le_of_lt ChoiceNumbering.sum_length_used_le hroom
  · rw [ChoiceNumbering.counts_table]
    exact ChoiceNumbering.inRange_entries
  · rw [ChoiceNumbering.counts_table]
    refine Matrix.storedInBounds ?_ e.options
    exact ChoiceEntry.inRange_map_toEntry ChoiceNumbering.inRange_entries
      fun _ => dst_lt_of_mem_entries

end Places

/-! ## All together -/

theorem not_mentionsUnknown
    (h : ∀ path ∈ relation.paths, ∀ l ∈ path.cube, (e.locate? l.var).isSome = true) :
    ¬ e.MentionsUnknown relation := by
  rintro ⟨path, hpath, l, hl, hunknown⟩
  exact not_unknown_of_isSome (h path hpath l hl) hunknown

/-- A build of one relation or two is never refused for an index that it worked out. It is refused for
its orders exactly if they disagree; and if they agree, all variables are known, the options rule
nothing out and there are no more states than 32-bit numbers, then it succeeds, as long as every array
can be had. On the way no place is looked at that is not there. -/
theorem outcome_of_relations (e : Encoding) (relation rewards : Relation) :
    e.Outcome [relation] (e.matrix relation) ∧
    e.Outcome [relation, rewards] (e.rewardMatrix relation rewards) ∧
    e.Outcome [relation] (e.choiceMatrix relation) ∧
    e.Outcome [relation, rewards] (e.rewardChoiceMatrix relation rewards) ∧
    (¬ e.OrdersDisagree → e.ExpandsInBounds) ∧
    ∀ transitions, (e.expand relation).result = .ok transitions →
      e.StoresInBounds transitions ∧ e.GroupsInBounds transitions transitions ∧
      ∀ kept, (e.reward transitions rewards).result = .ok kept →
        e.StoresInBounds kept ∧ e.GroupsInBounds transitions kept := by
  refine ⟨outcome_matrix e relation, outcome_rewardMatrix e relation rewards,
    outcome_choiceMatrix e relation, outcome_rewardChoiceMatrix e relation rewards,
    expandsInBounds, fun transitions hts => ?_⟩
  have hsame : ChoiceNumbering.Among (e.firstValue? relation) (e.firstValue? relation) :=
    fun _ _ _ hsome => hsome
  refine ⟨?_, ?_, fun kept hkept => ?_⟩
  · rw [expand_eq hts]
    exact storesInBounds _
  · rw [expand_eq hts]
    exact groupsInBounds _ hsame
  · rw [reward_eq hts hkept, expand_eq hts]
    exact ⟨storesInBounds _, groupsInBounds _ (among_reward? e relation rewards)⟩

/-- With as many choice variables as a word has bits the orders disagree. With one of them the rewards
of guarded choices are stored, each under the number of its choice, and without any of them those of
merged ones. -/
theorem outcome_of_guarded :
    (∃ expected found, ((twoStates (some ⟨List.replicate 64 (.nth 3)⟩)).choiceMatrix guarded).result
      = .error (.orderingMismatch expected found)) ∧
    (∃ m, ((twoStates (some oneBit)).rewardChoiceMatrix guarded arrival).result = .ok m) ∧
    (∃ transitions kept, ((twoStates (some oneBit)).expand guarded).result = .ok transitions ∧
      ((twoStates (some oneBit)).reward transitions arrival).result = .ok kept ∧
      (twoStates (some oneBit)).GroupsInBounds transitions kept) ∧
    ∃ m, ((twoStates none).rewardMatrix overlapping arrival).result = .ok m := by
  obtain ⟨_, _, hwide, _⟩ :=
    outcome_of_relations (twoStates (some ⟨List.replicate 64 (.nth 3)⟩)) guarded arrival
  obtain ⟨_, _, _, hguarded, _, hplaces⟩ :=
    outcome_of_relations (twoStates (some oneBit)) guarded arrival
  obtain ⟨_, hmerged, _⟩ := outcome_of_relations (twoStates none) overlapping arrival
  refine ⟨hwide.mismatch_iff.2 (Or.inr (Or.inr ⟨_, rfl, by decide⟩)), ?_, ?_, ?_⟩
  · refine hguarded.exists_ok (check_iff_not_ordersDisagree.1 rfl) ?_ (by decide) (by decide)
      (show 2 ≤ 4294967295 by decide) ?_
    · simp only [List.forall_mem_cons]
      exact ⟨not_mentionsUnknown (by decide), not_mentionsUnknown (by decide), by simp⟩
    · obtain ⟨m, hm⟩ := exists_rewardChoiceMatrix (storable_twoStates rfl)
        (roomy_twoStates (by decide)) known_guarded (known_arrival _)
      exact Traced.allocates_of_ok hm
  · obtain ⟨transitions, hts⟩ :=
      exists_expandTo (twoStates (some oneBit)).destinations rfl known_guarded
    obtain ⟨kept, hkept⟩ := exists_reward rfl (known_arrival (some oneBit)) transitions
    obtain ⟨_, _, hrewards⟩ := hplaces transitions hts
    obtain ⟨_, hgroups⟩ := hrewards kept hkept
    exact ⟨transitions, kept, hts, hkept, hgroups⟩
  · refine hmerged.exists_ok (check_iff_not_ordersDisagree.1 rfl) ?_ (by decide) (by decide)
      (show 2 ≤ 4294967295 by decide) ?_
    · simp only [List.forall_mem_cons]
      exact ⟨not_mentionsUnknown (by decide), not_mentionsUnknown (by decide), by simp⟩
    · obtain ⟨m, hm⟩ := exists_rewardMatrix (storable_twoStates rfl)
        (roomy_twoStates (by decide)) known_overlapping (known_arrival _)
      exact Traced.allocates_of_ok hm

end Encoding

end TransitionMatrix
