import Mathlib.Data.Option.Basic

namespace HeliosNano.Foundation

abbrev Tri := Option Bool

namespace Tri

def and : Tri → Tri → Tri
  | some false, _ => some false
  | _, some false => some false
  | some true, some true => some true
  | _, _ => none

def or : Tri → Tri → Tri
  | some true, _ => some true
  | _, some true => some true
  | some false, some false => some false
  | _, _ => none

def not (t : Tri) : Tri := t.map (!·)

/-- The conjunction of a list, true when there is nothing in it. -/
def all (ts : List Tri) : Tri := ts.foldr and (some true)

/-- The disjunction of a list, false when there is nothing in it. -/
def any (ts : List Tri) : Tri := ts.foldr or (some false)

@[simp] theorem or_true (t : Tri) : or t (some true) = some true := by
  rcases t with _ | _ | _ <;> rfl

@[simp] theorem false_or (t : Tri) : or (some false) t = t := by
  rcases t with _ | _ | _ <;> rfl

@[simp] theorem true_and (t : Tri) : and (some true) t = t := by
  rcases t with _ | _ | _ <;> rfl

theorem or_none_and_none (t : Tri) : or none (and none t) = none := by
  rcases t with _ | _ | _ <;> rfl

theorem any_eq (ts : List Tri) : any ts = if some true ∈ ts then some true else if none ∈ ts then none else some false := by
  induction ts with
  | nil => rfl
  | cons t rest ih =>
    change or t (any rest) = _
    rw [ih]
    rcases t with _ | _ | _
    · by_cases htr : some true ∈ rest
      · simp [htr]
      · by_cases hn : none ∈ rest <;> simp [htr,hn,or]
    · by_cases htr : some true ∈ rest <;> by_cases hn : none ∈ rest <;> simp [htr,hn]
    · simp [or]

end Tri
end HeliosNano.Foundation
