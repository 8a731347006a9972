import Mathlib.Data.Finset.Card
import TransitionMatrix.Proofs.ChoiceMatrix.Groups
import TransitionMatrix.Proofs.FirstSeen
import TransitionMatrix.Proofs.Symbolic.Transitions

/-!
# Numbers of choices

The number of a choice is its rank: how many smaller choices of its state occur. Numbering goes through
sorted transitions once, and remembers no more than the last choice and its number. As the transitions
of a state are together, and its choices come in increasing order, the number is one less than the
count of choices that the state has had so far.
-/

namespace TransitionMatrix

namespace Transition

/-! ## The choices of a state -/

/-- The state and the choice that a transition belongs to. -/
def place (t : Transition) : Nat × Nat := (t.src, t.choice)

/-- The choices of a state that occur in transitions. -/
def choicesAt (ts : List Transition) (src : Nat) : Finset Nat :=
  ((ts.filter fun t => t.src = src).map choice).toFinset

/-- How many smaller choices of the state occur. -/
def rank (ts : List Transition) (src choice : Nat) : Nat :=
  ((choicesAt ts src).filter fun smaller => smaller < choice).card

variable {ts seen rest : List Transition} {t : Transition} {src choice number : Nat}

theorem mem_choicesAt : choice ∈ choicesAt ts src ↔ ∃ t ∈ ts, t.src = src ∧ t.choice = choice := by
  simp [choicesAt, and_assoc]

theorem mem_choicesAt_iff_place : choice ∈ choicesAt ts src ↔ (src, choice) ∈ ts.map place := by
  simp [mem_choicesAt, place]

theorem choicesAt_concat : choicesAt (seen ++ [t]) t.src = insert t.choice (choicesAt seen t.src) := by
  ext choice
  simp only [mem_choicesAt, List.mem_append, List.mem_singleton, Finset.mem_insert]
  constructor
  · rintro ⟨u, hu | rfl, hsrc, hchoice⟩
    · exact Or.inr ⟨u, hu, hsrc, hchoice⟩
    · exact Or.inl hchoice.symm
  · rintro (rfl | ⟨u, hu, hsrc, hchoice⟩)
    · exact ⟨t, Or.inr rfl, rfl, rfl⟩
    · exact ⟨u, Or.inl hu, hsrc, hchoice⟩

/-! ## Ranks -/

theorem rank_lt_rank {choice' : Nat} (hmem : choice ∈ choicesAt ts src) (hlt : choice < choice') :
    rank ts src choice < rank ts src choice' := by
  apply Finset.card_lt_card
  rw [Finset.ssubset_iff_of_subset]
  · exact ⟨choice, by simp [hmem, hlt], by simp⟩
  · intro smaller hsmaller
    rw [Finset.mem_filter] at hsmaller ⊢
    exact ⟨hsmaller.1, Nat.lt_trans hsmaller.2 hlt⟩

theorem rank_lt_card (hmem : choice ∈ choicesAt ts src) :
    rank ts src choice < (choicesAt ts src).card :=
  Finset.card_lt_card (Finset.filter_ssubset.2 ⟨choice, hmem, Nat.lt_irrefl choice⟩)

theorem rank_lt_rank_iff {choice' : Nat} (hmem : choice ∈ choicesAt ts src)
    (hmem' : choice' ∈ choicesAt ts src) :
    rank ts src choice < rank ts src choice' ↔ choice < choice' := by
  refine ⟨fun hrank => ?_, rank_lt_rank hmem⟩
  by_contra hle
  rcases Nat.lt_or_eq_of_le (Nat.le_of_not_lt hle) with hlt | rfl
  · have hback := rank_lt_rank hmem' hlt
    omega
  · exact Nat.lt_irrefl _ hrank

theorem rank_inj {choice' : Nat} (hmem : choice ∈ choicesAt ts src)
    (hmem' : choice' ∈ choicesAt ts src) (h : rank ts src choice = rank ts src choice') :
    choice = choice' := by
  have hnot := (rank_lt_rank_iff hmem hmem').not
  have hnot' := (rank_lt_rank_iff hmem' hmem).not
  omega

/-- No number below the count of choices is left out. -/
theorem exists_rank_eq (h : number < (choicesAt ts src).card) :
    ∃ choice ∈ choicesAt ts src, rank ts src choice = number := by
  have hsurj := Finset.surjOn_of_injOn_of_card_le (rank ts src)
    (s := choicesAt ts src) (t := Finset.range (choicesAt ts src).card)
    (fun choice hmem => by simpa using rank_lt_card hmem)
    (fun choice hmem choice' hmem' => rank_inj hmem hmem') (by simp)
  obtain ⟨choice, hmem, hrank⟩ := hsurj (by simpa using h)
  exact ⟨choice, hmem, hrank⟩

/-! ## Sorted transitions -/

theorem place_le_of_le {u : Transition} (h : t.le u = true) :
    t.src < u.src ∨ t.src = u.src ∧ t.choice ≤ u.choice := by
  rw [le_iff] at h
  simp only [Lt, key, Prod.mk.injEq] at h
  omega

/-- The rank of a choice that is new is the count of choices that its state has had before. -/
theorem rank_of_new (hseen : ∀ u ∈ seen, u.le t = true) (hrest : ∀ u ∈ rest, t.le u = true)
    (hnew : t.choice ∉ choicesAt seen t.src) :
    rank (seen ++ t :: rest) t.src t.choice = (choicesAt seen t.src).card := by
  unfold rank
  congr 1
  ext choice
  simp only [Finset.mem_filter, mem_choicesAt, List.mem_append, List.mem_cons]
  constructor
  · rintro ⟨⟨u, hu | rfl | hu, hsrc, rfl⟩, hlt⟩
    · exact ⟨u, hu, hsrc, rfl⟩
    · exact absurd hlt (Nat.lt_irrefl _)
    · have hle := place_le_of_le (hrest u hu)
      omega
  · rintro ⟨u, hu, hsrc, rfl⟩
    refine ⟨⟨u, Or.inl hu, hsrc, rfl⟩, ?_⟩
    have hle := place_le_of_le (hseen u hu)
    have hne : u.choice ≠ t.choice := by
      intro heq
      exact hnew (mem_choicesAt.2 ⟨u, hu, hsrc, heq⟩)
    omega

end Transition

namespace ChoiceNumbering

open Transition

variable {ts seen rest : List Transition} {t : Transition} {last : Option (Nat × Nat)}
  {src choice number : Nat}

/-! ## One transition -/

/-- The number that the next choice gets, if it is one of the state `src`. -/
def next (last : Option (Nat × Nat)) (number src : Nat) : Nat :=
  if last.map Prod.fst = some src then number + 1 else 0

/-- What is remembered of the transitions that have been gone through. -/
structure Reached (seen : List Transition) (last : Option (Nat × Nat)) (number : Nat) : Prop where
  /-- The last choice is one of theirs. -/
  mem_seen : ∀ place, last = some place → place ∈ seen.map Transition.place
  /-- No state, and no choice of the last state, is larger than the last one. -/
  le_last : ∀ u ∈ seen, ∃ place, last = some place ∧
    (u.src < place.1 ∨ u.src = place.1 ∧ u.choice ≤ place.2)
  /-- The last choice is the last one of those that its state has had. -/
  card_eq : ∀ place, last = some place → (choicesAt seen place.1).card = number + 1

theorem reached_nil (number : Nat) : Reached [] none number where
  mem_seen := fun place h => by cases h
  le_last := fun u hu => by cases hu
  card_eq := fun place h => by cases h

namespace Reached

variable (h : Reached seen last number) (hseen : ∀ u ∈ seen, u.le t = true)

include h hseen

theorem last_eq_iff : last = some t.place ↔ t.choice ∈ choicesAt seen t.src := by
  rw [mem_choicesAt_iff_place]
  constructor
  · exact h.mem_seen t.place
  · intro hmem
    obtain ⟨u, hu, hplace⟩ := List.mem_map.1 hmem
    obtain ⟨⟨src, choice⟩, hlast, hle⟩ := h.le_last u hu
    obtain ⟨v, hv, hvplace⟩ := List.mem_map.1 (h.mem_seen _ hlast)
    have hvle := place_le_of_le (hseen v hv)
    simp only [Transition.place, Prod.mk.injEq] at hplace hvplace
    have hsrc : src = t.src := by omega
    have hchoice : choice = t.choice := by omega
    rw [hlast, hsrc, hchoice]
    rfl

/-- The next choice gets the count of choices that its state has had. -/
theorem next_eq : next last number t.src = (choicesAt seen t.src).card := by
  unfold next
  by_cases hsame : last.map Prod.fst = some t.src
  · obtain ⟨place, hlast, hsrc⟩ := Option.map_eq_some_iff.1 hsame
    rw [if_pos hsame, ← h.card_eq place hlast, hsrc]
  · rw [if_neg hsame, eq_comm, Finset.card_eq_zero, Finset.eq_empty_iff_forall_notMem]
    intro choice hmem
    obtain ⟨u, hu, hsrc, _⟩ := mem_choicesAt.1 hmem
    obtain ⟨place, hlast, hle⟩ := h.le_last u hu
    obtain ⟨v, hv, rfl⟩ := List.mem_map.1 (h.mem_seen _ hlast)
    have hvle := place_le_of_le (hseen v hv)
    refine hsame ?_
    rw [hlast, Option.map_some, Option.some.injEq]
    simp only [Transition.place] at hle ⊢
    omega

theorem concat : Reached (seen ++ [t]) (some t.place)
    (if last = some t.place then number else next last number t.src) where
  mem_seen := fun place hplace => by
    cases hplace
    simp
  le_last := fun u hu => by
    refine ⟨t.place, rfl, ?_⟩
    rcases List.mem_append.1 hu with hu | hu
    · exact place_le_of_le (hseen u hu)
    · rw [List.mem_singleton.1 hu]
      exact Or.inr ⟨rfl, Nat.le_refl _⟩
  card_eq := fun place hplace => by
    cases hplace
    show (choicesAt (seen ++ [t]) t.src).card = _
    rw [choicesAt_concat]
    by_cases hlast : last = some t.place
    · rw [if_pos hlast, Finset.insert_eq_of_mem ((h.last_eq_iff hseen).1 hlast)]
      exact h.card_eq t.place hlast
    · have hnew := mt (h.last_eq_iff hseen).2 hlast
      rw [if_neg hlast, Finset.card_insert_of_notMem hnew, h.next_eq hseen]

end Reached

/-! ## All transitions -/

/-- The choices of further transitions that none of those before has, in the order of their firsts. -/
def newPlaces (seen rest : List Transition) : List (Nat × Nat) :=
  (firstSeen id (rest.map place)).filter fun p => p ∉ seen.map place

theorem filter_newPlaces (seen rest : List Transition) (t : Transition) :
    ((firstSeen id (rest.map place)).filter fun p => id p ≠ id t.place).filter
      (fun p => p ∉ seen.map place) = newPlaces (seen ++ [t]) rest := by
  rw [newPlaces, List.filter_filter]
  refine List.filter_congr fun p _ => ?_
  simp [not_or]

theorem newPlaces_cons_of_mem (h : t.place ∈ seen.map place) :
    newPlaces seen (t :: rest) = newPlaces (seen ++ [t]) rest := by
  rw [← filter_newPlaces, newPlaces, List.map_cons, firstSeen,
    List.filter_cons_of_neg (by simpa using h)]

theorem newPlaces_cons_of_notMem (h : t.place ∉ seen.map place) :
    newPlaces seen (t :: rest) = t.place :: newPlaces (seen ++ [t]) rest := by
  rw [← filter_newPlaces, newPlaces, List.map_cons, firstSeen,
    List.filter_cons_of_pos (by simpa using h)]

theorem newPlaces_nil (rest : List Transition) :
    newPlaces [] rest = firstSeen id (rest.map place) := by
  simp [newPlaces]

theorem numberFrom_cons : numberFrom last number (t :: rest) =
    if last = some t.place then numberFrom last number rest
    else (t.place, next last number t.src) ::
      numberFrom (some t.place) (next last number t.src) rest := rfl

/-- Each choice that is new gets its rank. -/
theorem numberFrom_eq (h : Reached seen last number)
    (hsorted : (seen ++ rest).Pairwise fun t u => t.le u = true) :
    numberFrom last number rest =
      (newPlaces seen rest).map fun p => (p, rank (seen ++ rest) p.1 p.2) := by
  induction rest generalizing seen last number with
  | nil => rfl
  | cons t rest ih =>
    obtain ⟨_, hrest, hbefore⟩ := List.pairwise_append.1 hsorted
    have hseen : ∀ u ∈ seen, u.le t = true := fun u hu => hbefore u hu t List.mem_cons_self
    have hsplit : seen ++ t :: rest = (seen ++ [t]) ++ rest := by simp
    have ih := ih (h.concat hseen) (hsplit ▸ hsorted)
    rw [numberFrom_cons]
    by_cases hlast : last = some t.place
    · rw [if_pos hlast] at ih
      rw [if_pos hlast, newPlaces_cons_of_mem (h.mem_seen _ hlast), hsplit, ← ih, hlast]
    · have hnew := mt (h.last_eq_iff hseen).2 hlast
      have hmem : t.place ∉ seen.map place := by
        rw [← mem_choicesAt_iff_place]
        exact hnew
      have hrank : rank (seen ++ t :: rest) t.place.1 t.place.2 = next last number t.src := by
        rw [h.next_eq hseen]
        exact rank_of_new hseen (List.pairwise_cons.1 hrest).1 hnew
      rw [if_neg hlast] at ih
      rw [if_neg hlast, newPlaces_cons_of_notMem hmem, List.map_cons, hrank, ih, hsplit]

/-! ## Counting choices -/

/-- The numbers of choices of the states, from numbered choices that come in the given order. -/
def countsAlong (numStates : Nat) (order : List ((Nat × Nat) × Nat)) : List Nat :=
  (order.foldl (fun counts p => counts.modify p.1.1 (max · (p.2 + 1)))
    (Array.replicate numStates 0)).toList

theorem counts_eq_countsAlong (n : ChoiceNumbering) (numStates : Nat) :
    n.counts numStates = countsAlong numStates n.numbers.toList := by
  rw [counts, Std.HashMap.fold_eq_foldl_toList]
  rfl

/-! ## The numbering of sorted transitions -/

section Sorted

variable (hsorted : ts.Pairwise fun t u => t.le u = true)

include hsorted

theorem numberFrom_sorted : numberFrom none 0 ts =
    (firstSeen id (ts.map place)).map fun p => (p, rank ts p.1 p.2) := by
  rw [numberFrom_eq (reached_nil 0) hsorted, newPlaces_nil, List.nil_append]

/-- The choices that occur are numbered by their ranks. -/
theorem number?_eq_some_iff : (ofSorted ts).number? src choice = some number ↔
    choice ∈ choicesAt ts src ∧ rank ts src choice = number := by
  have hnodup : ((numberFrom none 0 ts).map Prod.fst).Nodup := by
    rw [numberFrom_sorted hsorted, List.map_map]
    exact nodup_map_firstSeen id (ts.map place)
  rw [number?, ofSorted, getElem?_ofList_eq_some_iff hnodup, numberFrom_sorted hsorted,
    mem_choicesAt_iff_place, List.mem_map]
  constructor
  · rintro ⟨p, hp, heq⟩
    cases heq
    exact ⟨mem_firstSeen_id.1 hp, rfl⟩
  · rintro ⟨hmem, rfl⟩
    exact ⟨(src, choice), mem_firstSeen_id.2 hmem, rfl⟩

/-- A state has as many choices as occur, in whatever order the numbered choices come. -/
theorem countsAlong_eq {order : List ((Nat × Nat) × Nat)}
    (horder : order.Perm (ofSorted ts).numbers.toList) (numStates : Nat) :
    countsAlong numStates order = (List.range numStates).map fun src => (choicesAt ts src).card := by
  have hmem : ∀ {src choice number}, ((src, choice), number) ∈ order ↔
      choice ∈ choicesAt ts src ∧ rank ts src choice = number := by
    intro src choice number
    rw [horder.mem_iff, Std.HashMap.mem_toList_iff_getElem?_eq_some]
    exact number?_eq_some_iff hsorted
  have hsize : (countsAlong numStates order).length = numStates := by
    rw [countsAlong, Array.length_toList,
      size_foldl_modify_max (fun p : (Nat × Nat) × Nat => p.1.1) (fun p => p.2 + 1),
      Array.size_replicate]
  refine List.ext_getElem (by simp [hsize]) fun i hi _ => ?_
  rw [hsize] at hi
  refine eq_of_forall_ge_iff fun b => ?_
  have hbound : (∀ p ∈ order, p.1.1 = i → p.2 + 1 ≤ b) ↔ (choicesAt ts i).card ≤ b := by
    constructor
    · intro hle
      by_contra hlt
      obtain ⟨choice, hchoice, hrank⟩ := exists_rank_eq (Nat.lt_of_not_le hlt)
      have hnext := hle _ (hmem.2 ⟨hchoice, hrank⟩) rfl
      omega
    · rintro hle ⟨⟨src, choice⟩, number⟩ hp rfl
      obtain ⟨hchoice, rfl⟩ := hmem.1 hp
      exact Nat.le_trans (rank_lt_card hchoice) hle
  have hle := foldl_modify_max_le (fun p : (Nat × Nat) × Nat => p.1.1) (fun p => p.2 + 1) order
    (Array.replicate numStates 0) (b := b) (show i < _ by simpa using hi)
  rw [hbound] at hle
  simp only [countsAlong, Array.getElem_toList, Array.getElem_eq_getD 0, hle]
  simp [hi]

theorem counts_ofSorted (numStates : Nat) : (ofSorted ts).counts numStates
    = (List.range numStates).map fun src => (choicesAt ts src).card := by
  rw [counts_eq_countsAlong, countsAlong_eq hsorted (List.Perm.refl _)]

/-- In sorted transitions, exactly the choices that occur are numbered, each by the count of distinct
smaller choices of its state. So the numbers of a state are in the order of its choices and leave none
out, and each state is counted as many choices as it has, whatever the order in which the numbered
choices are gone through. -/
theorem ranks_of_sorted :
    (∀ src choice, ((ofSorted ts).number? src choice).isSome = true ↔
      ∃ t ∈ ts, t.src = src ∧ t.choice = choice) ∧
    (∀ src choice number, (ofSorted ts).number? src choice = some number →
      number = ((choicesAt ts src).filter fun smaller => smaller < choice).card) ∧
    (∀ src choice choice' number number', (ofSorted ts).number? src choice = some number →
      (ofSorted ts).number? src choice' = some number' → (number < number' ↔ choice < choice')) ∧
    (∀ src number, (∃ choice, (ofSorted ts).number? src choice = some number) ↔
      number < (choicesAt ts src).card) ∧
    ∀ numStates,
      (ofSorted ts).counts numStates
        = (List.range numStates).map (fun src => (choicesAt ts src).card) ∧
      ∀ order, order.Perm (ofSorted ts).numbers.toList →
        countsAlong numStates order = (ofSorted ts).counts numStates := by
  have hnumber : ∀ {src choice number}, (ofSorted ts).number? src choice = some number ↔
      choice ∈ choicesAt ts src ∧ rank ts src choice = number := number?_eq_some_iff hsorted
  refine ⟨fun src choice => ?_, fun src choice number h => ?_, ?_, fun src number => ?_,
    fun numStates => ⟨counts_ofSorted hsorted numStates, fun order horder => ?_⟩⟩
  · rw [Option.isSome_iff_exists, ← mem_choicesAt]
    constructor
    · rintro ⟨number, h⟩
      exact (hnumber.1 h).1
    · intro hchoice
      exact ⟨_, hnumber.2 ⟨hchoice, rfl⟩⟩
  · exact (hnumber.1 h).2.symm
  · intro src choice choice' number number' h h'
    obtain ⟨hchoice, rfl⟩ := hnumber.1 h
    obtain ⟨hchoice', rfl⟩ := hnumber.1 h'
    exact rank_lt_rank_iff hchoice hchoice'
  · constructor
    · rintro ⟨choice, h⟩
      obtain ⟨hchoice, rfl⟩ := hnumber.1 h
      exact rank_lt_card hchoice
    · intro hlt
      obtain ⟨choice, hchoice, hrank⟩ := exists_rank_eq hlt
      exact ⟨choice, hnumber.2 ⟨hchoice, hrank⟩⟩
  · rw [countsAlong_eq hsorted horder, counts_ofSorted hsorted]

end Sorted

/-- Two choices of the first state, of which one has two transitions, none of the second state and
three of the third. -/
def unevenChoices : List Transition :=
  [⟨0, 5, 0, .one⟩, ⟨0, 5, 1, .one⟩, ⟨0, 9, 0, .one⟩, ⟨2, 0, 1, .one⟩, ⟨2, 5, 0, .one⟩, ⟨2, 9, 0, .one⟩]

theorem ranks_of_unevenChoices :
    unevenChoices.Pairwise (fun t u => t.le u = true) ∧
    (ofSorted unevenChoices).number? 0 9 = some 1 ∧ (ofSorted unevenChoices).number? 2 9 = some 2 ∧
    (ofSorted unevenChoices).number? 1 9 = none ∧
    (ofSorted unevenChoices).counts 3 = [2, 0, 3] ∧
    countsAlong 3 (ofSorted unevenChoices).numbers.toList.reverse = [2, 0, 3] := by
  have hsorted : unevenChoices.Pairwise fun t u => t.le u = true := by decide
  obtain ⟨hdefined, hrank, _, _, hcounts⟩ := ranks_of_sorted hsorted
  have hnumber : ∀ src choice, (∃ t ∈ unevenChoices, t.src = src ∧ t.choice = choice) →
      (ofSorted unevenChoices).number? src choice
        = some ((choicesAt unevenChoices src).filter fun smaller => smaller < choice).card := by
    intro src choice hmem
    obtain ⟨number, h⟩ := Option.isSome_iff_exists.1 ((hdefined src choice).2 hmem)
    rw [h, hrank src choice number h]
  obtain ⟨hthree, horders⟩ := hcounts 3
  have hvalue : (ofSorted unevenChoices).counts 3 = [2, 0, 3] := by
    rw [hthree]
    decide
  refine ⟨hsorted, ?_, ?_, ?_, hvalue, ?_⟩
  · rw [hnumber 0 9 (by decide)]
    decide
  · rw [hnumber 2 9 (by decide)]
    decide
  · rw [← Option.not_isSome_iff_eq_none, hdefined]
    decide
  · rw [horders _ (List.reverse_perm _), hvalue]

end ChoiceNumbering

end TransitionMatrix
