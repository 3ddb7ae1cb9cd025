import Mathlib.Data.List.Forall2

/-! Trees given by the children of their nodes, node-by-node relations between two of them, and a
code in brackets from which a tree can be told. -/
namespace Branching
open List

variable {α β : Type*} {children : α → List α} {children' : β → List β} {R S : α → β → Prop}

theorem map_eq_map_of_forall₂ {γ : Type*} {f : α → γ} {g : β → γ} {as : List α} {bs : List β}
    (h : List.Forall₂ (fun a b => f a = g b) as bs) : as.map f = bs.map g := by
  rwa [← forall₂_eq_eq_eq, forall₂_map_left_iff, forall₂_map_right_iff]

/-- The two trees have one shape, and the relation holds between the nodes at each place. -/
inductive Rel (children : α → List α) (children' : β → List β) (R : α → β → Prop) : α → β → Prop
  | node {a : α} {b : β} : R a b →
    List.Forall₂ (Rel children children' R) (children a) (children' b) →
    Rel children children' R a b

namespace Rel
variable {a : α} {b : β}

theorem here : Rel children children' R a b → R a b
  | .node h _ => h

theorem onChildren : Rel children children' R a b →
    List.Forall₂ (Rel children children' R) (children a) (children' b)
  | .node _ h => h

theorem length_eq (h : Rel children children' R a b) : (children a).length = (children' b).length :=
  h.onChildren.length_eq

/-- To prove something of two related trees, prove it of two nodes from what holds of their
children. -/
theorem ind {motive : α → β → Prop}
    (step : ∀ {a b}, Rel children children' R a b →
      List.Forall₂ motive (children a) (children' b) → motive a b)
    (h : Rel children children' R a b) : motive a b := by
  refine @Rel.rec α β children children' R (fun a b _ => motive a b)
    (fun as bs _ => List.Forall₂ motive as bs) ?_ ?_ ?_ a b h
  · intro a b hab hbelow ih
    exact step (.node hab hbelow) ih
  · exact .nil
  · intro a b as bs _ _ hhead htail
    exact .cons hhead htail

theorem mono (himp : ∀ {a b}, R a b → S a b) (h : Rel children children' R a b) :
    Rel children children' S a b := by
  apply h.ind
  intro a b hab ih
  exact .node (himp hab.here) ih

theorem and (hR : Rel children children' R a b) (hS : Rel children children' S a b) :
    Rel children children' (fun a b => R a b ∧ S a b) a b := by
  revert hS
  apply hR.ind
  intro a b hab ih hS
  refine .node ⟨hab.here, hS.here⟩ ?_
  exact List.Forall₂.mp (fun _ _ hcd hS => hcd hS) ih hS.onChildren

theorem flip (h : Rel children children' R a b) :
    Rel children' children (fun b a => R a b) b a := by
  apply h.ind
  intro a b hab ih
  exact .node hab.here (List.Forall₂.flip ih)

theorem comp {γ : Type*} {children'' : γ → List γ} {T : β → γ → Prop} {c : γ}
    (hR : Rel children children' R a b) (hT : Rel children' children'' T b c) :
    Rel children children'' (fun a c => ∃ b, R a b ∧ T b c) a c := by
  revert c
  apply hR.ind
  intro a b hab ih c hT
  refine .node ⟨b, hab.here, hT.here⟩ ?_
  have hT' := hT.onChildren
  revert ih hT'
  generalize children a = as
  generalize children' b = bs
  generalize children'' c = cs
  intro ih hT'
  induction ih generalizing cs with
  | nil =>
    cases hT'
    exact .nil
  | cons hhead _ htail =>
    cases hT' with
    | cons hhead' htail' => exact .cons (hhead hhead') (htail _ htail')

end Rel

/-! The code of a tree: each node's own code, then the codes of its children in brackets. -/

section
variable {σ : Type*} (opening separator closing : σ)

def bracketed : List (List σ) → List σ
  | [] => []
  | y :: ys => opening :: ([separator].intercalate (y :: ys) ++ [closing])

/-- What may follow a code: nothing, or something that starts with a sign that ends codes. -/
def Follows (stop : σ → Prop) (r : List σ) : Prop :=
  ∀ c ∈ r.head?, stop c

/-- A node's own code tells the node, up to a relation, whatever follows it. -/
def Tells (stop : σ → Prop) (own : α → Option (List σ)) (K : α → α → Prop) : Prop :=
  ∀ {a b x y r s}, own a = some x → own b = some y → Follows stop r → Follows stop s →
    x ++ r = y ++ s → K a b ∧ r = s

variable {opening separator closing} {stop : σ → Prop} {own code : α → Option (List σ)}
  {K : α → α → Prop}

theorem follows_cons {c : σ} {r : List σ} (h : stop c) : Follows stop (c :: r) := by
  intro d hd
  cases hd
  exact h

theorem follows_bracketed {ys : List (List σ)} {r : List σ} (ho : stop opening)
    (hr : Follows stop r) : Follows stop (bracketed opening separator closing ys ++ r) := by
  cases ys with
  | nil => exact hr
  | cons y ys => exact follows_cons ho

theorem mapM_cons_eq_some {a : α} {as : List α} {ys : List (List σ)}
    (h : (a :: as).mapM code = some ys) :
    ∃ x xs, ys = x :: xs ∧ code a = some x ∧ as.mapM code = some xs := by
  simp only [mapM_cons, Option.bind_eq_bind, Option.bind_eq_some_iff, Option.pure_def,
    Option.some.injEq] at h
  obtain ⟨x, hx, xs, hxs, rfl⟩ := h
  exact ⟨x, xs, rfl, hx, hxs⟩

theorem mapM_eq_nil {as : List α} (h : as.mapM code = some []) : as = [] := by
  cases as with
  | nil => rfl
  | cons a as =>
    obtain ⟨x, xs, hcons, -⟩ := mapM_cons_eq_some h
    cases hcons

/-- The codes of children, told apart one after the other. -/
theorem forall₂_of_codes (hsc : separator ≠ closing) {as bs : List α} {y z : List σ}
    {ys zs : List (List σ)} {r s : List σ}
    (hys : as.mapM code = some (y :: ys)) (hzs : bs.mapM code = some (z :: zs))
    (htell : ∀ a ∈ as, ∀ {b x y c d r s}, code a = some x → code b = some y →
      (c = separator ∨ c = closing) → (d = separator ∨ d = closing) →
      x ++ c :: r = y ++ d :: s → Rel children children K a b ∧ c :: r = d :: s)
    (h : [separator].intercalate (y :: ys) ++ closing :: r =
      [separator].intercalate (z :: zs) ++ closing :: s) :
    List.Forall₂ (Rel children children K) as bs ∧ r = s := by
  induction as generalizing bs y ys z zs with
  | nil => simp at hys
  | cons a as ih =>
    obtain _ | ⟨b, bs⟩ := bs
    · simp at hzs
    obtain ⟨_, _, ⟨⟩, hy, hys⟩ := mapM_cons_eq_some hys
    obtain ⟨_, _, ⟨⟩, hz, hzs⟩ := mapM_cons_eq_some hzs
    have htell' := @htell a mem_cons_self b y z
    -- each code ends at a separator or at the closing bracket
    obtain _ | ⟨y', ys⟩ := ys <;> obtain _ | ⟨z', zs⟩ := zs <;>
      simp only [intercalate_singleton, intercalate_cons_cons, append_assoc,
        cons_append, nil_append] at h
    · obtain ⟨hab, hrs⟩ := htell' hy hz (.inr rfl) (.inr rfl) h
      rw [mapM_eq_nil hys, mapM_eq_nil hzs]
      exact ⟨.cons hab .nil, (cons.inj hrs).2⟩
    · obtain ⟨-, hrs⟩ := htell' hy hz (.inr rfl) (.inl rfl) h
      exact absurd (cons.inj hrs).1.symm hsc
    · obtain ⟨-, hrs⟩ := htell' hy hz (.inl rfl) (.inr rfl) h
      exact absurd (cons.inj hrs).1 hsc
    · obtain ⟨hab, hrs⟩ := htell' hy hz (.inl rfl) (.inl rfl) h
      obtain ⟨htail, hrs'⟩ := ih hys hzs (forall_mem_cons.mp htell).2
        (cons.inj hrs).2
      exact ⟨.cons hab htail, hrs'⟩

/-- A code in brackets tells the whole tree, as soon as the nodes' own codes tell the nodes. -/
theorem rel_of_code {size : α → Nat} (hsize : ∀ a, ∀ c ∈ children a, size c < size a)
    (hcode : ∀ a, code a = (own a).bind fun x => ((children a).mapM code).map fun ys =>
      x ++ bracketed opening separator closing ys)
    (htells : Tells stop own K)
    (hos : opening ≠ separator) (hoc : opening ≠ closing) (hsc : separator ≠ closing)
    (ho : stop opening) (hs : stop separator) (hc : stop closing)
    {a b : α} {x y r s : List σ} (hx : code a = some x) (hy : code b = some y)
    (hr : Follows (fun c => stop c ∧ c ≠ opening) r)
    (hs' : Follows (fun c => stop c ∧ c ≠ opening) s) (h : x ++ r = y ++ s) :
    Rel children children K a b ∧ r = s := by
  -- induction on the first tree
  induction hn : size a using Nat.strongRecOn generalizing a b x y r s with
  | ind n ih =>
    subst hn
    rw [hcode] at hx hy
    simp only [Option.bind_eq_some_iff, Option.map_eq_some_iff] at hx hy
    obtain ⟨x, hx, ys, hys, rfl⟩ := hx
    obtain ⟨y, hy, zs, hzs, rfl⟩ := hy
    rw [append_assoc, append_assoc] at h
    obtain ⟨hK, hrest⟩ := htells hx hy
      (follows_bracketed ho fun c hc => (hr c hc).1)
      (follows_bracketed ho fun c hc => (hs' c hc).1) h
    suffices List.Forall₂ (Rel children children K) (children a) (children b) ∧ r = s from
      ⟨.node hK this.1, this.2⟩
    obtain _ | ⟨y₁, ys⟩ := ys <;> obtain _ | ⟨z₁, zs⟩ := zs
    · rw [mapM_eq_nil hys, mapM_eq_nil hzs]
      exact ⟨.nil, hrest⟩
    · rw [bracketed, bracketed, nil_append] at hrest
      subst hrest
      exact absurd rfl (hr opening rfl).2
    · rw [bracketed, bracketed, nil_append] at hrest
      subst hrest
      exact absurd rfl (hs' opening rfl).2
    · simp only [bracketed, cons_append, cons.injEq, append_assoc, true_and,
        nil_append] at hrest
      refine forall₂_of_codes hsc hys hzs ?_ hrest
      intro c hcmem d x y e f r s hx hy he hf heq
      have hstop : ∀ {e r}, (e = separator ∨ e = closing) →
          Follows (fun c => stop c ∧ c ≠ opening) (e :: r) := by
        rintro e r (rfl | rfl)
        · exact follows_cons ⟨hs, hos.symm⟩
        · exact follows_cons ⟨hc, hoc.symm⟩
      exact ih _ (hsize a c hcmem) hx hy (hstop he) (hstop hf) heq rfl

end

end Branching
