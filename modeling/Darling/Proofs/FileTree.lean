import Darling.FileTree
import Mathlib.Data.List.Induction

/-!
# Places in a tree and their paths

A place is a list of names; `render` and `components` go back and forth between it and its path.
What stands above an existing place are directories (`Node.descend_above`), so nothing above it is a
link.
-/

namespace Darling

open List

variable {ds : List Bytes}

section Path

theorem render_append (cs ds : List Bytes) : render (cs ++ ds) = render cs ++ render ds :=
  flatMap_append

theorem render_concat (cs : List Bytes) (c : Bytes) :
    render (cs ++ [c]) = render cs ++ slash :: c := by
  simp [render]

variable {cs : List Bytes}

theorem render_eq_nil : render cs = [] ↔ cs = [] := by
  cases cs <;> simp [render]

theorem components_append (p q : Bytes) :
    components (p ++ slash :: q) = components p ++ components q := by
  simp [components, splitOn_append_cons_of_beq]

theorem components_concat (p : Bytes) {d : Bytes} (hd : d ≠ []) (hs : slash ∉ d) :
    components (p ++ slash :: d) = components p ++ [d] := by
  rw [components_append]
  simp [components, splitOn_eq_singleton hs, hd]

theorem components_append_render (p : Bytes)
    (h : ∀ c ∈ cs, c ≠ [] ∧ slash ∉ c) : components (p ++ render cs) = components p ++ cs := by
  induction cs using reverseRecOn with
  | nil => simp [render]
  | append_singleton cs c ih =>
    rw [render_concat, ← append_assoc,
      components_concat _ (h c (by simp)).1 (h c (by simp)).2, ih fun d hd => h d (by simp [hd]),
      append_assoc]

theorem components_render (h : ∀ c ∈ cs, c ≠ [] ∧ slash ∉ c) :
    components (render cs) = cs := components_append_render [] h

theorem prefix_of_render (hc : ∀ c ∈ cs, c ≠ [] ∧ slash ∉ c)
    (hd : ∀ c ∈ ds, c ≠ [] ∧ slash ∉ c) {u : Bytes} (h : render ds = render cs ++ u)
    (hu : u = [] ∨ u.head? = some slash) : cs <+: ds := by
  rw [← components_render hd, h]
  obtain rfl | hu := hu
  · exact ⟨[], by rw [append_nil, append_nil, components_render hc]⟩
  · rcases u with _ | ⟨b, u⟩
    · simp at hu
    · rw [head?_cons, Option.some.injEq] at hu
      rw [hu, components_append, components_render hc]
      exact prefix_append _ _

theorem IsName.text (h : ∀ c ∈ cs, IsName c) : ∀ c ∈ cs, c ≠ [] ∧ slash ∉ c :=
  fun c hc => ⟨(h c hc).1, (h c hc).2.1⟩

end Path

namespace Node

variable {n : Node}

theorem descend_append : ∀ (n : Node) (cs ds : List Bytes),
    n.descend (cs ++ ds) = (n.descend cs).bind (·.descend ds)
  | n, [], ds => by simp [descend]
  | file, _ :: _, _ => rfl
  | symlink _, _ :: _, _ => rfl
  | dir es, c :: cs, ds => by
    simp only [cons_append, descend, Option.bind_assoc]
    exact congrArg _ (funext fun m => descend_append m cs ds)

variable {m : Node} {cs : List Bytes}

theorem exists_descend_above (h : n.descend cs = some m)
    (hd : ds <+: cs) : ∃ a, n.descend ds = some a := by
  obtain ⟨es, rfl⟩ := hd
  rw [descend_append] at h
  obtain ⟨a, ha, -⟩ := Option.bind_eq_some_iff.1 h
  exact ⟨a, ha⟩

theorem descend_above (h : n.descend (cs ++ ds) = some m)
    (hds : ds ≠ []) : ∃ es, n.descend cs = some (dir es) := by
  rw [descend_append] at h
  rcases hcs : n.descend cs with _ | a
  · simp [hcs] at h
  rw [hcs, Option.bind_some] at h
  rcases ds with _ | ⟨d, ds⟩
  · exact absurd rfl hds
  rcases a with _ | _ | es
  · simp [descend] at h
  · simp [descend] at h
  · exact ⟨es, rfl⟩

theorem descend_concat {es : List (Bytes × Node)} (h : n.descend cs = some (dir es))
    (c : Bytes) : n.descend (cs ++ [c]) = es.lookup c := by
  rw [descend_append, h, Option.bind_some, descend]
  rcases es.lookup c with _ | m
  · rfl
  · rw [Option.bind_some, descend]

theorem root_dir {es : List (Bytes × Node)} (h : n.descend cs = some (dir es)) :
    ∃ ns, n.descend [] = some (dir ns) := by
  by_cases hcs : cs = []
  · exact ⟨es, hcs ▸ h⟩
  · exact descend_above (cs.nil_append.symm ▸ h) hcs

theorem not_linkAt_of_descend (h : n.descend cs = some m)
    (hm : m.kind ≠ .symlink) : ¬ n.LinkAt cs := by
  rintro ⟨t, ht⟩
  rw [ht, Option.some.injEq] at h
  exact hm (h ▸ rfl)

theorem cleanAbove_of_descend (h : n.descend cs = some m) : n.CleanAbove cs := by
  rintro ds ⟨es, rfl⟩ hne
  obtain ⟨ns, hns⟩ := descend_above h (by rintro rfl; simp at hne)
  exact not_linkAt_of_descend hns (by simp [kind])

theorem Clean.above (h : n.Clean cs) : n.CleanAbove cs := fun ds hds _ => h ds hds

theorem clean_iff : n.Clean cs ↔ n.CleanAbove cs ∧ ¬ n.LinkAt cs := by
  refine ⟨fun h => ⟨h.above, h cs (prefix_refl _)⟩, fun ⟨ha, hl⟩ ds hds => ?_⟩
  by_cases hne : ds = cs
  · exact hne ▸ hl
  · exact ha ds hds hne

theorem Clean.concat (h : n.Clean cs) (c : Bytes) : n.CleanAbove (cs ++ [c]) := by
  intro ds hds hne
  obtain hds | rfl := prefix_concat_iff.1 hds |>.symm
  · exact h ds hds
  · exact absurd rfl hne

theorem CleanAbove.dropLast (h : n.CleanAbove cs) (hne : cs ≠ []) :
    n.Clean cs.dropLast := fun ds hds =>
  h ds (hds.trans (List.dropLast_prefix _)) fun heq => by
    have hle := hds.length_le
    have hpos := length_pos_of_ne_nil hne
    rw [heq, length_dropLast] at hle
    omega

end Node

end Darling
