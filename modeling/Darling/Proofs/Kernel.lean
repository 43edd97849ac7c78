import Darling.Kernel
import Darling.Proofs.FileTree

/-!
# The kernel of a tree reports the tree

`Node.kernel` resolves the links above a place as `namei` does; where there are none it answers for
the place itself, so it is `Faithful` (`Node.kernel_faithful`).
-/

namespace Darling

open List

theorem fail_neg (e : ℕ+) : fail e < 0 := by
  have := e.pos
  simp only [fail]
  omega

theorem errnoLinuxToBsd_neg {table : ℕ → ℕ} {err : ℤ} (h : err < 0) :
    errnoLinuxToBsd table err < 0 := by
  unfold errnoLinuxToBsd
  split_ifs <;> omega

variable {cs : List Bytes}

theorem render_ne_slash (h : ∀ c ∈ cs, IsName c) : render cs ≠ [slash] := by
  intro hr
  have hc := components_render (IsName.text h)
  rw [hr] at hc
  have : cs = [] := hc.symm
  simp [this, render] at hr

theorem absolute_of_ne_nil (h : cs ≠ []) : absolute cs = render cs := if_neg h

theorem absolute_head? (cs : List Bytes) : (absolute cs).head? = some slash := by
  rcases cs with _ | ⟨c, cs⟩ <;> rfl

theorem absolute_append_head? (cs : List Bytes) (tl : Bytes) :
    (absolute cs ++ tl).head? = some slash := by
  rw [List.head?_append, absolute_head?]
  rfl

theorem absolute_eq_ite (cs : List Bytes) :
    absolute cs = if render cs = [] then [slash] else render cs := by
  rw [absolute, if_congr render_eq_nil.symm rfl rfl]

theorem absolute_dropWhile (cs : List Bytes) (tl : Bytes) :
    (absolute cs ++ tl).dropWhile (· = slash) = (render cs ++ tl).dropWhile (· = slash) := by
  rcases cs with _ | ⟨c, cs⟩
  · simp [absolute, render]
  · rfl

theorem render_prefix_absolute {ps : List Bytes} (hp : ∀ c ∈ ps, IsName c) :
    render ps <+: absolute cs ↔ render ps <+: render cs := by
  rcases cs with _ | ⟨c, cs⟩
  · constructor
    · intro h
      obtain h | h := List.prefix_concat_iff.1 (show render ps <+: [] ++ [slash] from h)
      · exact absurd h (render_ne_slash hp)
      · exact h
    · intro h
      rw [List.prefix_nil.1 h]
      exact List.nil_prefix
  · rfl

namespace Node

variable {fs : Node}

mutual

/-- Names and link texts hold no NUL. -/
def textual : Node → Bool
  | file => true
  | symlink t => 0 ∉ t
  | dir es => textualEntries es

def textualEntries : List (Bytes × Node) → Bool
  | [] => true
  | (c, n) :: es => 0 ∉ c && textual n && textualEntries es

end

theorem textualEntries_mem : ∀ {es : List (Bytes × Node)}, textualEntries es → ∀ e ∈ es,
    0 ∉ e.1 ∧ textual e.2
  | [], _, e, he => by simp at he
  | (c, n) :: es, h, e, he => by
    simp only [textualEntries, Bool.and_eq_true, decide_eq_true_eq] at h
    rcases mem_cons.1 he with rfl | he
    · exact h.1
    · exact textualEntries_mem h.2 e he

variable {n : Node} {cs : List Bytes} {c : Bytes}

theorem mem_of_lookup : ∀ {es : List (Bytes × Node)}, es.lookup c = some n → (c, n) ∈ es
  | [], h => by simp at h
  | (d, m) :: es, h => by
    rw [lookup_cons] at h
    split at h
    · rename_i heq
      rw [Option.some.injEq] at h
      rw [eq_of_beq heq, h]
      exact mem_cons_self
    · exact mem_cons_of_mem _ (mem_of_lookup h)

theorem textual_descend : ∀ {n m : Node} {cs : List Bytes}, n.textual → n.descend cs = some m →
    m.textual
  | n, m, [], hn, h => by
    rw [descend, Option.some.injEq] at h
    exact h ▸ hn
  | dir es, m, c :: cs, hn, h => by
    obtain ⟨n, hl, hd⟩ := Option.bind_eq_some_iff.1 h
    exact textual_descend (textualEntries_mem hn _ (mem_of_lookup hl)).2 hd
  | file, m, c :: cs, _, h => by simp [descend] at h
  | symlink t, m, c :: cs, _, h => by simp [descend] at h

theorem cText_of_notMem {t : Bytes} (h : 0 ∉ t) : cText t = t :=
  takeWhile_eq_self_iff.2 fun b hb => by
    simpa using fun h0 : b = 0 => h (h0 ▸ hb)

section Walk

variable {again : List Bytes → List Bytes → Except ℕ+ (List Bytes)}

theorem walk_cons {cur cs : List Bytes} (hc : IsName c) (hl : ¬ fs.LinkAt (cur ++ [c])) :
    fs.walk again cur (c :: cs) =
      match fs.descend (cur ++ [c]) with
      | some _ => fs.walk again (cur ++ [c]) cs
      | none => .error (if (fs.descend cur).map kind = some .dir then enoent else enotdir) := by
  rw [walk, if_neg hc.2.2.2.1, if_neg hc.2.2.2.2]
  rcases hd : fs.descend (cur ++ [c]) with _ | n
  · rfl
  · rcases n with _ | t | es
    · rfl
    · exact absurd ⟨t, hd⟩ hl
    · rfl

theorem walk_descend : ∀ {cur cs : List Bytes} {n : Node}, (∀ c ∈ cs, IsName c) →
    fs.descend (cur ++ cs) = some n → n.kind ≠ .symlink → fs.walk again cur cs = .ok (cur ++ cs)
  | cur, [], _, _, _, _ => by simp [walk]
  | cur, c :: cs, n, hcs, hd, hk => by
    rw [append_cons] at hd
    have hc : ∃ m, fs.descend (cur ++ [c]) = some m ∧ m.kind ≠ .symlink := by
      by_cases hnil : cs = []
      · exact ⟨n, by simpa [hnil] using hd, hk⟩
      · obtain ⟨es, hes⟩ := descend_above hd hnil
        exact ⟨_, hes, by simp [kind]⟩
    obtain ⟨m, hm, hmk⟩ := hc
    rw [walk_cons (hcs c mem_cons_self) (not_linkAt_of_descend hm hmk), hm]
    rw [walk_descend (fun d hd => hcs d (mem_cons_of_mem _ hd)) hd hk, append_assoc,
      singleton_append]

theorem walk_none : ∀ {cur cs : List Bytes}, (∀ c ∈ cs, IsName c) → fs.Clean (cur ++ cs) →
    (fs.descend cur).isSome → fs.descend (cur ++ cs) = none → ∃ e, fs.walk again cur cs = .error e
  | cur, [], _, _, hs, hd => by
    rw [append_nil] at hd
    simp [hd] at hs
  | cur, c :: cs, hcs, hcl, hs, hd => by
    rw [append_cons] at hd hcl
    rw [walk_cons (hcs c mem_cons_self) (hcl _ (List.prefix_append _ _))]
    rcases hm : fs.descend (cur ++ [c]) with _ | m
    · exact ⟨_, rfl⟩
    · exact walk_none (fun d hd => hcs d (mem_cons_of_mem _ hd)) hcl (by simp [hm]) hd

end Walk

theorem namei_descend (h : ∀ c ∈ cs, IsName c) (hd : fs.descend cs = some n)
    (hk : n.kind ≠ .symlink) : fs.namei maxLinks [] cs = .ok cs := walk_descend h hd hk

theorem namei_none (h : ∀ c ∈ cs, IsName c) (hcl : fs.Clean cs)
    (hd : fs.descend cs = none) : ∃ e, fs.namei maxLinks [] cs = .error e := walk_none h hcl rfl hd

theorem place_concat (h : ∀ d ∈ cs ++ [c], IsName d) :
    fs.place (render (cs ++ [c])) = (fs.namei maxLinks [] cs).map (· ++ [c]) := by
  rw [place, components_render (IsName.text h)]
  simp

theorem place_render (h : ∀ c ∈ cs, IsName c)
    (hd : fs.descend cs = some n) : fs.place (render cs) = .ok cs := by
  rcases cs.eq_nil_or_concat' with rfl | ⟨ds, c, rfl⟩
  · rfl
  · obtain ⟨es, hes⟩ := descend_above hd (by simp)
    rw [place_concat h, namei_descend (fun d hd => h d (by simp [hd])) hes (by simp [kind])]
    rfl

theorem kernel_faithful (hfs : fs.textual) (links : ProcLink → Except ℕ+ Bytes) :
    Faithful (fs.kernel links) fs where
  lstat {cs n} h _ hd := by
    simp [kernel, lstat, place_render h hd, hd]
  lstat_none {cs} h hne hcl hd := by
    obtain rfl | ⟨ds, c, rfl⟩ := cs.eq_nil_or_concat'
    · exact absurd rfl hne
    have hds : ∀ d ∈ ds, IsName d := fun d hd => h d (by simp [hd])
    have hclean : fs.Clean ds := by
      have := hcl.dropLast hne
      rwa [dropLast_concat] at this
    simp only [kernel, lstat, place_concat h]
    rcases hdd : fs.descend ds with _ | m
    · obtain ⟨e, he⟩ := namei_none hds hclean hdd
      exact ⟨e, by rw [he]; rfl⟩
    · have hk : m.kind ≠ .symlink := fun hk => by
        rcases m with _ | t | es
        · simp [kind] at hk
        · exact hclean ds (List.prefix_refl _) ⟨t, hdd⟩
        · simp [kind] at hk
      rw [namei_descend hds hdd hk]
      simp only [Except.map, hd]
      exact ⟨_, rfl⟩
  readlink {cs t} h hd := by
    have ht : 0 ∉ t := by simpa [textual] using textual_descend hfs hd
    simp [kernel, readlink, place_render h hd, hd, cText_of_notMem ht]
  getdents {cs es} h hd := by
    have hcomp : components (absolute cs) = cs := by
      rw [absolute]
      split_ifs with hnil
      · rw [hnil]
        rfl
      · exact components_render (IsName.text h)
    refine ⟨[[dot] :: [dot, dot] :: es.map (cText ·.1)], ?_, fun d hname => ?_⟩
    · simp only [kernel, getdents, hcomp, namei_descend h hd
        (show (dir es).kind ≠ .symlink by simp [kind]), hd]
    simp only [flatten_cons, flatten_nil, append_nil, mem_cons, mem_map,
      hname.2.2.2.1, hname.2.2.2.2, false_or]
    have hes := textual_descend hfs hd
    constructor
    · rintro ⟨e, he, rfl⟩
      rw [cText_of_notMem (textualEntries_mem hes e he).1]
      exact ⟨e.2, he⟩
    · rintro ⟨n, hn⟩
      exact ⟨_, hn, cText_of_notMem (textualEntries_mem hes _ hn).1⟩

section Below

theorem namei_append (fs : Node) : ∀ (n : ℕ) (cur cs ds : List Bytes),
    ∃ m, fs.namei n cur (cs ++ ds) = (fs.namei n cur cs).bind fun r => fs.namei (m + 1) r ds
  | 0, _, _, _ => ⟨0, rfl⟩
  | n + 1, cur, [], ds => ⟨n, rfl⟩
  | n + 1, cur, c :: cs, ds => by
    rw [namei, cons_append, walk, walk]
    by_cases hdot : c = [dot]
    · simp only [if_pos hdot]
      exact namei_append fs (n + 1) cur cs ds
    by_cases hup : c = [dot, dot]
    · simp only [if_neg hdot, if_pos hup]
      exact namei_append fs (n + 1) cur.dropLast cs ds
    simp only [if_neg hdot, if_neg hup]
    rcases fs.descend (cur ++ [c]) with _ | _ | t | es
    · exact ⟨0, rfl⟩
    · exact namei_append fs (n + 1) (cur ++ [c]) cs ds
    · have := namei_append fs n (if t.head? = some slash then [] else cur) (components t ++ cs) ds
      rwa [append_assoc] at this
    · exact namei_append fs (n + 1) (cur ++ [c]) cs ds

/-- What `lstat` says of a name in a directory. -/
def child (fs : Node) (r : List Bytes) (c : Bytes) : Except ℕ+ Kind :=
  match fs.descend (r ++ [c]) with
  | some n => .ok n.kind
  | none => .error (if (fs.descend r).map kind = some .dir then enoent else enotdir)

variable {q c : Bytes}

theorem lstat_append (hc : IsName c) : fs.lstat (q ++ slash :: c) =
      (fs.namei maxLinks [] (components q)).bind fun r => fs.child r c := by
  rw [lstat, place, components_concat q hc.1 hc.2.1, getLast?_concat, dropLast_concat]
  rcases fs.namei maxLinks [] (components q) with e | r
  · rfl
  · simp only [Except.map, Except.bind, dropLast_concat]
    rfl

theorem child_dir {r : List Bytes} {es : List (Bytes × Node)} (h : fs.descend r = some (dir es))
    (c : Bytes) : fs.child r c = match es.lookup c with
      | some n => .ok n.kind
      | none => .error enoent := by
  rw [child, descend_concat h, h]
  rfl

theorem lstat_eq_ok {kd : Kind} (hc : IsName c)
    (h : fs.lstat (q ++ slash :: c) = .ok kd) : ∃ r es n,
      fs.namei maxLinks [] (components q) = .ok r ∧ fs.descend r = some (dir es) ∧
        es.lookup c = some n ∧ n.kind = kd := by
  rw [lstat_append hc] at h
  rcases hr : fs.namei maxLinks [] (components q) with e | r
  · rw [hr] at h
    cases h
  · rw [hr] at h
    change fs.child r c = .ok kd at h
    unfold child at h
    split at h
    · rename_i n hd
      obtain ⟨es, hes⟩ := descend_above hd (by simp)
      rw [descend_concat hes] at hd
      exact ⟨r, es, n, rfl, hes, hd, Except.ok.inj h⟩
    · cases h

theorem lstat_error_unique {c' : Bytes} {e e' : ℕ+} (hc : IsName c) (hc' : IsName c')
    (h : fs.lstat (q ++ slash :: c) = .error e) (h' : fs.lstat (q ++ slash :: c') = .error e') :
    e = e' := by
  rw [lstat_append hc] at h
  rw [lstat_append hc'] at h'
  generalize fs.namei maxLinks [] (components q) = res at h h'
  rcases res with e₀ | r
  · exact Except.error.inj (h.symm.trans h')
  · change fs.child r c = .error e at h
    change fs.child r c' = .error e' at h'
    unfold child at h h'
    split at h
    · cases h
    · split at h'
      · cases h'
      · exact Except.error.inj (h.symm.trans h')

theorem lstat_error_below {x : Bytes} {e : ℕ+} (hx : IsName x)
    (h : fs.lstat (q ++ slash :: x) = .error e) {ys : List Bytes} (hys : ∀ y ∈ ys, IsName y) :
    fs.lstat (q ++ render (x :: ys)) = .error e := by
  obtain rfl | ⟨zs, y, rfl⟩ := ys.eq_nil_or_concat'
  · simpa [render] using h
  have hnames : ∀ z ∈ x :: zs, IsName z :=
    forall_mem_cons.2 ⟨hx, fun z hz => hys z (by simp [hz])⟩
  rw [← cons_append, render_concat, ← append_assoc, lstat_append (hys y (by simp)),
    components_append_render q (IsName.text hnames)]
  rw [lstat_append hx] at h
  obtain ⟨m, hm⟩ := namei_append fs maxLinks [] (components q) (x :: zs)
  rw [hm]
  generalize fs.namei maxLinks [] (components q) = res at h ⊢
  rcases res with e₀ | r
  · exact h
  · change fs.child r x = .error e at h
    change ((fs.walk (fs.namei m) r (x :: zs)).bind fun r => fs.child r y) = .error e
    unfold child at h
    split at h
    · cases h
    · rename_i hd
      have hlink : ¬ fs.LinkAt (r ++ [x]) := by
        rintro ⟨t, ht⟩
        rw [hd] at ht
        cases ht
      rw [walk_cons hx hlink, hd]
      exact h

theorem getdents_eq_ok {p : Bytes} {r : List Bytes} {es : List (Bytes × Node)}
    (hr : fs.namei maxLinks [] (components p) = .ok r) (hd : fs.descend r = some (dir es)) :
    fs.getdents p = .ok [[dot] :: [dot, dot] :: es.map (cText ·.1)] := by
  rw [getdents, hr]
  simp [hd]

end Below

end Node

end Darling
