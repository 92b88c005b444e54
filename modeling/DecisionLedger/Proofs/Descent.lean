import DecisionLedger.Proofs.Examination

/-! # Descents

Parents lead from a unit down over one layer after another.  A search on the way down asks each
layer in turn, and keeps no list of those that it has passed; nothing but the layers themselves
makes it end.  Where parents lead to the accepted state it ends there at the latest, and finds what
the stack of the layers says.
-/

namespace DecisionLedger

/-- What a layer says of whether a key is consumed: that it is, or nothing. -/
def Diff.taken? (diff : Diff) (key : StateKey) : Option Bool :=
  if diff.consumes key then some true else none

theorem Diff.findSome?_taken? (layers : List Diff) (key : StateKey) :
    (layers.findSome? (·.taken? key)).getD false = layers.any (·.consumes key) := by
  induction layers with
  | nil => rfl
  | cons diff below ih => cases taken : diff.consumes key <;> simp_all [taken?]

namespace Versions

/-- Parents lead from a unit over layers, the topmost first, to the accepted state. -/
inductive Reaches (layers : Std.ExtTreeMap UnitId Diff) (accepted : UnitId) :
    UnitId → List Diff → Prop where
  | accepted : accepted ∉ layers → Reaches layers accepted accepted []
  | layer {cursor : UnitId} {diff : Diff} {below : List Diff} : layers[cursor]? = some diff →
      Reaches layers accepted diff.parent below → Reaches layers accepted cursor (diff :: below)

/-- The layer of one unit lies on another unit. -/
def LiesOn (versions : Versions) (upper lower : UnitId) : Prop :=
  ∃ diff, versions.layers[upper]? = some diff ∧ diff.parent = lower

/-- Ask one layer after another on the way down, and under the lowest one take `bottom` for an
answer.  Nothing comes of it if more than `visits` units have to be looked at. -/
def descend {α : Type} (versions : Versions) (ask : Diff → Option α) (bottom : α) :
    (visits : Nat) → (cursor : UnitId) → Option (Except DiffError α)
  | 0, _ => none
  | visits + 1, cursor =>
    match versions.layers[cursor]? with
    | some diff =>
      match ask diff with
      | some answer => some (.ok answer)
      | none => versions.descend ask bottom visits diff.parent
    | none =>
      if cursor = versions.accepted then some (.ok bottom)
      else some (.error (.missingBase cursor))

namespace Reaches

section Walk

variable {layers : Std.ExtTreeMap UnitId Diff} {accepted cursor gone : UnitId}
  {below other : List Diff}

theorem mem_of_found {diff : Diff} (found : layers[cursor]? = some diff) : cursor ∈ layers := by
  simp [Std.ExtTreeMap.mem_iff_isSome_getElem?, found]

theorem of_found {diff : Diff} (reaches : Reaches layers accepted cursor below)
    (found : layers[cursor]? = some diff) :
    ∃ rest, below = diff :: rest ∧ Reaches layers accepted diff.parent rest := by
  cases reaches with
  | accepted bare => exact absurd (mem_of_found found) bare
  | layer known further =>
      rw [found, Option.some.injEq] at known
      subst known
      exact ⟨_, rfl, further⟩

theorem unique (reaches : Reaches layers accepted cursor below)
    (again : Reaches layers accepted cursor other) : below = other := by
  induction reaches generalizing other with
  | accepted bare =>
      cases again with
      | accepted _ => rfl
      | layer found _ => exact absurd (mem_of_found found) bare
  | layer found _ ih =>
      obtain ⟨rest, rfl, further⟩ := again.of_found found
      rw [ih further]

theorem erase (reaches : Reaches layers accepted cursor below)
    (longer : Reaches layers accepted gone other) (higher : below.length < other.length) :
    Reaches (layers.erase gone) accepted cursor below := by
  induction reaches with
  | accepted bare => exact .accepted fun inside => bare (Std.ExtTreeMap.mem_of_mem_erase inside)
  | @layer cursor diff below found further ih =>
      have apart : gone ≠ cursor := by
        rintro rfl
        rw [longer.unique (.layer found further)] at higher
        exact Nat.lt_irrefl _ higher
      refine .layer ?_ (ih (Nat.lt_of_succ_lt higher))
      simp [Std.ExtTreeMap.getElem?_erase, apart, found]

/-- Where parents lead to the accepted state, no layer is passed twice. -/
theorem walk_eq (reaches : Reaches layers accepted cursor below) :
    walk layers accepted cursor = (below, .accepted) := by
  induction below generalizing layers cursor with
  | nil =>
      cases reaches with
      | accepted bare => rw [walk_of_not_mem bare, if_pos rfl]
  | cons diff below ih =>
      cases reaches with
      | layer found further =>
          obtain ⟨known, rfl⟩ := Std.ExtTreeMap.getElem?_eq_some_iff.mp found
          have lower := further.erase (.layer found further) (Nat.lt_succ_self _)
          rw [walk_of_mem known]
          dsimp only
          rw [ih lower]

end Walk

section Search

variable {versions : Versions} {cursor other : UnitId} {below : List Diff}

theorem view_eq (reaches : Reaches versions.layers versions.accepted cursor below) :
    versions.view cursor = { layers := below, base := .accepted, state? := versions.state? } := by
  rw [view, reaches.walk_eq]

theorem read_eq (reaches : Reaches versions.layers versions.accepted cursor below)
    (key : StateKey) :
    (versions.view cursor).read key =
      .ok ((below.findSome? (·.local? key)).getD (versions.state? key)) := by
  rw [reaches.view_eq, View.read]
  cases below.findSome? (·.local? key) <;> rfl

theorem consumes_eq (reaches : Reaches versions.layers versions.accepted cursor below)
    (key : StateKey) :
    (versions.view cursor).consumes key = .ok (below.any (·.consumes key)) := by
  rw [reaches.view_eq, View.consumes]
  cases below.any (·.consumes key) <;> rfl

theorem get_eq {diff : Diff}
    (reaches : Reaches versions.layers versions.accepted diff.parent below) (key : StateKey) :
    diff.get versions key =
      .ok (((diff :: below).findSome? (·.local? key)).getD (versions.state? key)) := by
  rw [Diff.get, View.read_under, reaches.read_eq]
  cases found : diff.local? key <;> simp [found]

/-- A search looks at each layer, and at the accepted state under them, and then ends. -/
theorem descend_eq {α : Type} (ask : Diff → Option α) (bottom : α)
    (reaches : Reaches versions.layers versions.accepted cursor below) {visits : Nat}
    (enough : below.length < visits) :
    versions.descend ask bottom visits cursor =
      some (.ok ((below.findSome? ask).getD bottom)) := by
  induction reaches generalizing visits with
  | accepted bare =>
      cases visits with
      | zero => simp at enough
      | succ visits => simp [descend, bare]
  | @layer _ diff _ found _ ih =>
      cases visits with
      | zero => simp at enough
      | succ visits =>
          have further := ih (Nat.lt_of_succ_lt_succ enough)
          cases answer : ask diff <;> simp [descend, found, answer, further]

theorem descend_read (reaches : Reaches versions.layers versions.accepted cursor below)
    {visits : Nat} (enough : below.length < visits) (key : StateKey) :
    versions.descend (·.local? key) (versions.state? key) visits cursor =
      some ((versions.view cursor).read key) := by
  rw [reaches.read_eq, reaches.descend_eq _ _ enough]

theorem descend_consumes (reaches : Reaches versions.layers versions.accepted cursor below)
    {visits : Nat} (enough : below.length < visits) (key : StateKey) :
    versions.descend (·.taken? key) false visits cursor =
      some ((versions.view cursor).consumes key) := by
  rw [reaches.consumes_eq, reaches.descend_eq _ _ enough, Diff.findSome?_taken?]

theorem of_liesOn (reaches : Reaches versions.layers versions.accepted cursor below)
    (down : Relation.ReflTransGen versions.LiesOn cursor other) :
    ∃ rest, Reaches versions.layers versions.accepted other rest := by
  induction down with
  | refl => exact ⟨below, reaches⟩
  | tail _ step ih =>
      obtain ⟨rest, further⟩ := ih
      obtain ⟨diff, found, rfl⟩ := step
      obtain ⟨lower, -, lowest⟩ := further.of_found found
      exact ⟨lower, lowest⟩

theorem down (reaches : Reaches versions.layers versions.accepted cursor below) :
    Relation.ReflTransGen versions.LiesOn cursor versions.accepted := by
  induction reaches with
  | accepted _ => exact .refl
  | layer found _ ih => exact .head ⟨_, found, rfl⟩ ih

end Search

end Reaches

end Versions

section Base

variable {view : View} {key : StateKey} {unit : UnitId}

theorem View.read_ne_missing (whole : view.base = .accepted) :
    view.read key ≠ .error (.missingBase unit) := by
  unfold View.read
  rw [whole]
  split <;> simp

theorem View.consumes_ne_missing (whole : view.base = .accepted) :
    view.consumes key ≠ .error (.missingBase unit) := by
  unfold View.consumes
  rw [whole]
  split <;> simp

namespace Diff

theorem checkInput_ne_missing (whole : view.base = .accepted) :
    checkInput view key ≠ .error (.missingBase unit) := by
  intro lost
  unfold checkInput at lost
  rcases bind_eq_error_iff.mp lost with lost | ⟨taken, -, lost⟩
  · exact View.consumes_ne_missing whole lost
  · cases taken with
    | true => cases lost
    | false =>
        rcases bind_eq_error_iff.mp lost with lost | ⟨found, -, lost⟩
        · exact View.read_ne_missing whole lost
        · cases found <;> cases lost

theorem executeOn_ne_missing (whole : view.base = .accepted) (diff : Diff)
    (transaction : Transaction) :
    executeOn view diff transaction ≠ .error (.missingBase unit) := by
  intro lost
  rcases bind_eq_error_iff.mp lost with lost | ⟨_, -, lost⟩
  · obtain ⟨-, key, -, -, -, failed⟩ := forM_eq_error_iff.mp lost
    have covered : (view.under diff).base = .accepted := whole
    exact checkInput_ne_missing covered failed
  · cases lost

theorem executeAll_ne_missing (whole : view.base = .accepted) (diff : Diff)
    (transactions : List Transaction) :
    transactions.foldlM (executeOn view) diff ≠ .error (.missingBase unit) := by
  induction transactions generalizing diff with
  | nil => nofun
  | cons transaction rest ih =>
      intro lost
      rw [List.foldlM_cons] at lost
      rcases bind_eq_error_iff.mp lost with lost | ⟨next, -, lost⟩
      · exact executeOn_ne_missing whole diff transaction lost
      · exact ih next lost

end Diff

end Base

end DecisionLedger
