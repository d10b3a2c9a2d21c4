import LuaSyntax.Proofs.View.Rows
import LuaSyntax.Proofs.View.Ordinary
import Mathlib.Data.List.Forall2

/-! # Equality of trees

Trees that are equal layer by layer have the same rows, up to the equality of numbers. Where all numbers are
ordinary the rows are the same, so equal trees are the same tree.
-/
namespace LuaSyntax

namespace Node

/-- Equality of payloads, with numbers compared as numbers. -/
def Payload.equals : Payload → Payload → Bool
  | .number value, .number value' => value.equals value'
  | payload, payload' => payload == payload'

section Lists
variable {items items' others others' : List Node} {branches branches' : List (Node × Node)}
  {option option' : Option Node}

theorem equalEach_iff : equalEach items items' ↔ List.Forall₂ (fun v v' => v.equals v') items items' := by
  induction items generalizing items' with
  | nil => cases items' <;> simp [equalEach]
  | cons v items ih => cases items' <;> simp [equalEach, ih]

theorem equalBranches_iff : equalBranches branches branches' ↔
    List.Forall₂ (fun branch branch' => branch.1.equals branch'.1 ∧ branch.2.equals branch'.2)
      branches branches' := by
  induction branches generalizing branches' with
  | nil => cases branches' <;> simp [equalBranches]
  | cons branch branches ih => cases branches' <;> simp [equalBranches, ih]

theorem equalEach_append (h : equalEach items items') (ho : equalEach others others') :
    equalEach (items ++ others) (items' ++ others') :=
  equalEach_iff.mpr (List.rel_append (equalEach_iff.mp h) (equalEach_iff.mp ho))

theorem equalEach_branches (h : equalBranches branches branches') :
    equalEach (branches.flatMap fun branch => [branch.1, branch.2])
      (branches'.flatMap fun branch => [branch.1, branch.2]) := by
  rw [equalBranches_iff] at h
  induction h with
  | nil => rfl
  | cons hbranch _ ih => simp [equalEach, hbranch, ih]

theorem equalEach_options (h : equalOptions option option') : equalEach option.toList option'.toList := by
  cases option <;> cases option' <;> simp_all [equalOptions, equalEach]

theorem equalEach_refl (h : ∀ v ∈ items, v.equals v) : equalEach items items :=
  equalEach_iff.mpr (List.forall₂_same.mpr h)

theorem equalBranches_refl (h : ∀ branch ∈ branches, branch.1.equals branch.1 ∧ branch.2.equals branch.2) :
    equalBranches branches branches :=
  equalBranches_iff.mpr (List.forall₂_same.mpr h)

theorem equalOptions_refl (h : ∀ v ∈ option, v.equals v) : equalOptions option option := by
  cases option with
  | none => rfl
  | some v => exact h v rfl

/-- Lists of equal trees have the same rows if equal trees do. -/
theorem flatMap_rows_of_equalEach (h : equalEach items items')
    (hr : ∀ v ∈ items, ∀ v' ∈ items', v.equals v' → v.rows = v'.rows) :
    items.length = items'.length ∧ items.flatMap rows = items'.flatMap rows := by
  rw [equalEach_iff] at h
  induction h with
  | nil => exact ⟨rfl, rfl⟩
  | @cons v v' items items' hv _ ih =>
    have hrows := hr v List.mem_cons_self v' List.mem_cons_self hv
    obtain ⟨hlength, hothers⟩ := ih fun w hw w' hw' => hr w (.tail _ hw) w' (.tail _ hw')
    exact ⟨congrArg Nat.succ hlength, by rw [List.flatMap_cons, List.flatMap_cons, hrows, hothers]⟩

end Lists

theorem equalForms_children {form form' : Form Node} (h : equalForms form form') :
    form.tag = form'.tag ∧ form.payload.equals form'.payload ∧ equalEach form.children form'.children := by
  unfold equalForms at h
  -- one case for each kind of form, and the last one for two forms of different kinds
  split at h
  all_goals simp_all [Form.tag, Form.payload, Form.children, equalEach, Payload.equals, equalEach_append,
    equalEach_branches, equalEach_options]

theorem equalForms_refl {form : Form Node} (hn : ∀ value, form = .number value → value.equals value)
    (h : ∀ v ∈ form.children, v.equals v) : equalForms form form := by
  cases form with
  | conditional branches otherwise =>
    have hbranches : equalBranches branches branches := equalBranches_refl fun branch hb =>
      ⟨h _ (List.mem_append_left _ (List.mem_flatMap.mpr ⟨branch, hb, .head _⟩)),
        h _ (List.mem_append_left _ (List.mem_flatMap.mpr ⟨branch, hb, .tail _ (.head _)⟩))⟩
    have hotherwise : equalOptions otherwise otherwise :=
      equalOptions_refl fun v hv => h v (List.mem_append_right _ (Option.mem_toList.mpr hv))
    simp [equalForms, hbranches, hotherwise]
  | numericFor counter start limit step body =>
    have hstep : equalOptions step step :=
      equalOptions_refl fun v hv => h v (by simp [Form.children, Option.mem_def.mp hv])
    simp_all [Form.children, equalForms]
  | function parameters body isMethod =>
    have hparameters : equalEach parameters parameters := equalEach_refl fun v hv => h v (List.mem_append_left _ hv)
    simp_all [Form.children, equalForms]
  | _ => simp_all [Form.children, equalForms, equalEach_refl]

section Trees
variable {v v' : Node}

theorem equals_refl (h : v.Numbers Number.Ordinary) : v.equals v := by
  induction v using children_induction with
  | h v ih =>
    obtain ⟨form, span⟩ := v
    obtain ⟨hnumber, hchildren⟩ := forall_mem_preorder.mp h
    have hform : equalForms form form := by
      refine equalForms_refl (fun value he => ?_) fun child hc => ih child hc (hchildren child hc)
      have hvalue := hnumber value he
      exact (hvalue.equals_iff hvalue).mpr rfl
    simp [equals, hform]

theorem payload_eq_number {form : Form Node} {value : Number} :
    form.payload = .number value ↔ form = .number value := by
  cases form <;> simp [Form.payload]

theorem payload_eq {form form' : Form Node} (hn : ∀ value, form = .number value → value.Ordinary)
    (hn' : ∀ value, form' = .number value → value.Ordinary) (h : form.payload.equals form'.payload) :
    form.payload = form'.payload := by
  unfold Payload.equals at h
  split at h
  · next value value' hv hv' =>
    have hvalue := hn value (payload_eq_number.mp hv)
    rw [hv, hv', (hvalue.equals_iff (hn' value' (payload_eq_number.mp hv'))).mp h]
  · exact eq_of_beq h

theorem rows_of_equals (hv : v.Numbers Number.Ordinary) (hv' : v'.Numbers Number.Ordinary) (h : v.equals v') :
    v.rows = v'.rows := by
  induction v using children_induction generalizing v' with
  | h v ih =>
    obtain ⟨form, span⟩ := v
    obtain ⟨form', span'⟩ := v'
    obtain ⟨hnumber, hchildren⟩ := forall_mem_preorder.mp hv
    obtain ⟨hnumber', hchildren'⟩ := forall_mem_preorder.mp hv'
    simp only [equals, Bool.and_eq_true, beq_iff_eq] at h
    obtain ⟨hform, hspan⟩ := h
    obtain ⟨htag, hpayload, heach⟩ := equalForms_children hform
    obtain ⟨harity, hrows⟩ := flatMap_rows_of_equalEach heach fun child hc child' hc' =>
      ih child hc (hchildren child hc) (hchildren' child' hc')
    have hrow : (⟨form, span⟩ : Node).row = (⟨form', span'⟩ : Node).row :=
      Row.mk.injEq .. ▸ ⟨htag, hspan, harity, payload_eq hnumber hnumber' hpayload⟩
    rw [rows_eq_cons, rows_eq_cons, hrow]
    exact congrArg _ hrows

end Trees

end Node

/-- Trees of any two parses are equal where the walks through them show the same rows, and then they are the
same tree. A row shows of its node which child stands in which place. -/
theorem parse_rows {source source' : Bytes} {limit limit' : Nat} {filename filename' : String} {root root' : Node}
    (h : parse source limit filename = .ok root) (h' : parse source' limit' filename' = .ok root') :
    (root == root' ↔ root.rows = root'.rows) ∧ (root.rows = root'.rows → root = root') ∧
      ∀ node : Node, ∃ layout, node.row.layout = some layout ∧
        node.form = layout.map fun i => node.children.getD i node := by
  have hroot := parse_ordinary h
  refine ⟨⟨Node.rows_of_equals hroot (parse_ordinary h'), fun hrows => ?_⟩, Node.eq_of_rows, Node.exists_layout⟩
  obtain rfl := Node.eq_of_rows hrows
  exact Node.equals_refl hroot

theorem parse_rows_quotes : ∃ root root', parse (.ofString "f'a'") 1 "" = .ok root ∧
    parse (.ofString "f\"a\"") 1 "" = .ok root' ∧ root == root' := by
  let call : Node := ⟨.call ⟨.name (.ofString "f"), 1, 1⟩ [⟨.string (.ofString "a"), 2, 4⟩], 1, 4⟩
  have h : parse (.ofString "f'a'") 1 "" = .ok ⟨.block [call], 1, 4⟩ := rfl
  have h' : parse (.ofString "f\"a\"") 1 "" = .ok ⟨.block [call], 1, 4⟩ := rfl
  exact ⟨_, _, h, h', (parse_rows h h').1.mpr rfl⟩

end LuaSyntax
