import Iamroot.Realpath

/-!
# Where the walk stands

A place is what `output` spells: a base, the `..` that climb from the working
directory, and names. The tests and the pointer moves of `__realpathat` on
`output` are read here as what they do to the place, and a path that is made of
`output` and one more component as the components that the host will find in it.
-/

namespace Iamroot

open FileTree

def addName (out c : Str) : Str := out ++ if needsSlash out then '/' :: c else c

/-- Two slashes at the start, and not three. -/
def double (s : Str) : Bool := s.take 2 = ['/', '/'] ∧ s[2]? ≠ some '/'

inductive Base where
  | cwd
  | one
  | two
  deriving DecidableEq

def Base.text : Base → Str
  | .cwd => []
  | .one => ['/']
  | .two => ['/', '/']

structure Place where
  base : Base
  nup : Nat
  names : Loc

namespace Place

def text (o : Place) : Str := (o.names ++ List.replicate o.nup dotdot).foldr (fun c out => addName out c) o.base.text

def loc (cwd : Loc) (o : Place) : Loc := o.names ++ if o.base = .cwd then cwd.drop o.nup else []

def push (o : Place) (c : Str) : Place := { o with names := c :: o.names }

def up (o : Place) : Place :=
  match o.names with
  | [] => if o.base = .cwd then { o with nup := o.nup + 1 } else o
  | _ :: ℓ => { o with names := ℓ }

def start (o : Place) (t : Str) : Place :=
  if isAbs t then { base := if double t then .two else .one, nup := 0, names := [] } else o

def final (cwd : Loc) (o : Place) : Str := if o.base = .two then '/' :: pathOf o.names else pathOf (o.loc cwd)

def endFits (cwd : Loc) (o : Place) : Bool :=
  o.base ≠ .cwd || decide ((pathOf (o.loc cwd)).length + 1 < pathMax)

structure Ok (o : Place) : Prop where
  valid : ValidLoc o.names
  nup : o.base ≠ .cwd → o.nup = 0

end Place

/-! ## The text of a place -/

theorem needsSlash_iff {out : Str} : needsSlash out = true ↔ ∃ c, out.getLast? = some c ∧ c ≠ '/' := by
  unfold needsSlash
  cases out.getLast? <;> simp

theorem needsSlash_append {out c : Str} (hc : c ≠ []) (h : '/' ∉ c) : needsSlash (out ++ c) = true := by
  rw [needsSlash_iff]
  refine ⟨c.getLast hc, ?_, fun e => h (e ▸ List.getLast_mem hc)⟩
  rw [List.getLast?_append_of_ne_nil _ hc, List.getLast?_eq_getLast_of_ne_nil hc]

theorem needsSlash_addName {out c : Str} (hc : c ≠ []) (h : '/' ∉ c) : needsSlash (addName out c) = true := by
  unfold addName
  split
  · rw [List.append_cons]
    exact needsSlash_append hc h
  · exact needsSlash_append hc h

theorem addName_of_needs {out : Str} (h : needsSlash out = true) (c : Str) : addName out c = out ++ '/' :: c := by
  rw [addName, if_pos h]

/-- What `output` is between two components: a base, or a string that does not end in a slash. -/
def Spelled (out : Str) : Prop := needsSlash out = true ∨ out = [] ∨ out = ['/'] ∨ out = ['/', '/']

theorem rdropWhile_append {p : Char → Bool} {c : Str} (h : ∀ x ∈ c, p x = true) (out : Str) :
    (out ++ c).rdropWhile p = out.rdropWhile p := by
  induction c using List.reverseRecOn with
  | nil => rw [List.append_nil]
  | append_singleton c x ih =>
    rw [← List.append_assoc, List.rdropWhile_concat_pos _ _ _ (h x (by simp))]
    exact ih fun y hy => h y (by simp [hy])

theorem popName_addName {out c : Str} (hs : Spelled out) (hc : '/' ∉ c) : popName (addName out c) = out := by
  have hp : ∀ x ∈ c, decide (x ≠ '/') = true := by
    intro x hx
    simp only [ne_eq, decide_eq_true_eq]
    rintro rfl
    exact hc hx
  rcases hs with hn | h
  · have hd : (addName out c).rdropWhile (fun x => decide (x ≠ '/')) = out ++ ['/'] := by
      rw [addName_of_needs hn, List.append_cons, rdropWhile_append hp, List.rdropWhile_concat_neg _ _ _ (by decide)]
    unfold popName
    simp only [hd]
    obtain ⟨x, hx, hne⟩ := needsSlash_iff.mp hn
    have h0 : out ≠ [] := by rintro rfl; cases hx
    rw [if_pos, List.dropLast_concat]
    have hl : 0 < out.length := List.length_pos_of_ne_nil h0
    refine ⟨by simp [hl], ?_⟩
    by_cases h1 : out.length = 1
    · right
      obtain ⟨y, rfl⟩ := List.length_eq_one_iff.mp h1
      simp only [List.getLast?_singleton, Option.some.injEq] at hx
      subst hx
      simpa using hne
    · left
      rw [List.length_append, List.length_singleton]
      omega
  · have hd : (addName out c).rdropWhile (fun x => decide (x ≠ '/')) = out := by
      rcases h with rfl | rfl | rfl <;> exact (rdropWhile_append hp _).trans rfl
    unfold popName
    simp only [hd]
    rcases h with rfl | rfl | rfl <;> rfl

namespace Place

variable {o : Place} {cwd : Loc} {c : Str}

theorem Ok.mem_pieces (h : o.Ok) {x : Str} (hx : x ∈ o.names ++ List.replicate o.nup dotdot) : x ≠ [] ∧ '/' ∉ x := by
  rcases List.mem_append.mp hx with hx | hx
  · exact ⟨(h.valid x hx).1, (h.valid x hx).2.1⟩
  · rw [List.eq_of_mem_replicate hx]
    decide

theorem spelled_foldr (b : Base) : ∀ {l : List Str}, (∀ x ∈ l, x ≠ [] ∧ '/' ∉ x) →
    Spelled (l.foldr (fun c out => addName out c) b.text)
  | [], _ => by cases b <;> simp [Base.text, Spelled]
  | x :: l, h => Or.inl (needsSlash_addName (h x (by simp)).1 (h x (by simp)).2)

theorem text_push (o : Place) (c : Str) : (o.push c).text = addName o.text c := rfl

theorem popName_text (h : o.Ok) (hn : o.names ≠ [] ∨ o.base ≠ .cwd) : popName o.text = o.up.text := by
  cases hℓ : o.names with
  | nil =>
    have hb := hn.resolve_left (· hℓ)
    have ht : o.text = o.base.text := by simp only [text, hℓ, h.nup hb]; rfl
    rw [up, hℓ]
    simp only [if_neg hb, ht]
    cases hb' : o.base with
    | cwd => exact absurd hb' hb
    | one | two => rfl
  | cons c ℓ =>
    have ht : o.text = addName o.up.text c := by simp only [text, up, hℓ]; rfl
    have hs : Spelled o.up.text := by
      simp only [text, up, hℓ]
      refine spelled_foldr o.base fun x hx => h.mem_pieces ?_
      rw [hℓ]
      exact List.mem_cons_of_mem _ hx
    rw [ht]
    exact popName_addName hs (h.valid c (by simp [hℓ])).2.1

theorem length_addName (out c : Str) :
    (addName out c).length = out.length + c.length + if needsSlash out then 1 else 0 := by
  unfold addName
  split
  · simp only [List.length_append, List.length_cons]; omega
  · simp only [List.length_append]; omega

theorem length_ups (n : Nat) : ((List.replicate n dotdot).foldr (fun c out => addName out c) []).length +
    (if n = 0 then 0 else 1) = 3 * n := by
  induction n with
  | zero => rfl
  | succ n ih =>
    rw [List.replicate_succ, List.foldr_cons, length_addName]
    have hd : dotdot.length = 2 := rfl
    cases n with
    | zero => rfl
    | succ n =>
      have hn : needsSlash ((List.replicate (n + 1) dotdot).foldr (fun c out => addName out c) []) = true :=
        needsSlash_addName (by decide) (by decide)
      rw [hn]
      simp only [Nat.succ_ne_zero, if_false, if_true] at ih ⊢
      omega

theorem text_le_iff (h : o.Ok) : o.text.length ≤ 3 * o.nup ↔ o.names = [] ∧ o.base = .cwd := by
  by_cases hb : o.base = .cwd
  · have hu := length_ups o.nup
    have ht : o.text = (o.names ++ List.replicate o.nup dotdot).foldr (fun c out => addName out c) [] := by
      rw [text, hb]; rfl
    have hge : ∀ {ℓ : Loc}, ValidLoc ℓ → ℓ ≠ [] →
        3 * o.nup < ((ℓ ++ List.replicate o.nup dotdot).foldr (fun c out => addName out c) []).length := by
      intro ℓ hv hℓ
      induction ℓ with
      | nil => exact absurd rfl hℓ
      | cons c ℓ ih =>
        have hc : 0 < c.length := List.length_pos_of_ne_nil (hv c (by simp)).1
        rw [List.cons_append, List.foldr_cons, length_addName]
        by_cases hℓ' : ℓ = []
        · subst hℓ'
          rw [List.nil_append]
          cases hn : o.nup with
          | zero => simp only [List.replicate_zero, List.foldr_nil]; omega
          | succ n =>
            have hs : needsSlash ((List.replicate (n + 1) dotdot).foldr (fun c out => addName out c) []) = true :=
              needsSlash_addName (by decide) (by decide)
            rw [hn] at hu
            simp only [Nat.succ_ne_zero, if_false] at hu
            rw [if_pos hs]
            omega
        · have := ih (fun x hx => hv x (by simp [hx])) hℓ'
          omega
    refine ⟨fun hle => ⟨?_, hb⟩, fun hn => ?_⟩
    · by_contra hne
      have := hge h.valid hne
      rw [← ht] at this
      omega
    · rw [hn.1, List.nil_append] at ht
      rw [ht]
      omega
  · refine ⟨fun hle => ?_, fun hn => absurd hn.2 hb⟩
    rw [h.nup hb] at hle
    have h0 : o.text = [] := List.length_eq_zero_iff.mp (Nat.le_zero.mp hle)
    have ht : o.text = o.names.foldr (fun c out => addName out c) o.base.text := by
      rw [text, h.nup hb, List.replicate_zero, List.append_nil]
    cases hn : o.names with
    | nil =>
      rw [ht, hn] at h0
      cases hb' : o.base with
      | cwd => exact absurd hb' hb
      | one | two => rw [hb'] at h0; cases h0
    | cons c ℓ =>
      have hc := (h.valid c (by simp [hn])).1
      rw [ht, hn, List.foldr_cons, addName] at h0
      split at h0 <;> simp_all

/-! ## The path that the host is asked about -/

def path (o : Place) : List (Comp Str) :=
  o.base.text.map (fun _ => .empty) ++ (List.replicate o.nup .up ++ o.names.reverse.map .name)

theorem parse_foldr (b : Base) : ∀ {l : List Str}, (∀ x ∈ l, x ≠ [] ∧ '/' ∉ x) → ∀ {c : Str}, '/' ∉ c →
    parse (addName (l.foldr (fun c out => addName out c) b.text) c) =
      b.text.map (fun _ => .empty) ++ (l.reverse.map compOf ++ [compOf c])
  | [], _, c, hc => by
    cases b with
    | cwd => exact parse_of_no_slash hc
    | one => exact (parse_slash c).trans (by rw [parse_of_no_slash hc]; rfl)
    | two => exact (parse_slash ('/' :: c)).trans (by rw [parse_slash, parse_of_no_slash hc]; rfl)
  | x :: l, h, c, hc => by
    obtain ⟨hx, hs⟩ := h x (by simp)
    rw [List.foldr_cons, addName_of_needs (needsSlash_addName hx hs), parse_append,
      parse_foldr b (fun y hy => h y (List.mem_cons_of_mem _ hy)) hs, parse_of_no_slash hc, List.reverse_cons,
      List.map_append]
    simp only [List.append_assoc, List.map_cons, List.map_nil]

theorem map_compOf {ℓ : List Str} (h : ∀ c ∈ ℓ, ValidName c) : ℓ.map compOf = ℓ.map .name :=
  List.map_congr_left fun c hc => compOf_name (h c hc)

theorem parse_addName (h : o.Ok) (hc : '/' ∉ c) : parse (addName o.text c) = o.path ++ [compOf c] := by
  have hup : compOf dotdot = .up := rfl
  rw [text, parse_foldr o.base (fun _ => h.mem_pieces) hc, path, List.reverse_append, List.reverse_replicate,
    List.map_append, List.map_replicate, map_compOf fun x hx => h.valid x (List.mem_reverse.mp hx), hup]
  simp only [List.append_assoc]

theorem isAbs_foldr (b : Base) : ∀ {l : List Str}, (∀ x ∈ l, x ≠ [] ∧ '/' ∉ x) → ∀ {c : Str}, '/' ∉ c →
    isAbs (addName (l.foldr (fun c out => addName out c) b.text) c) = decide (b ≠ .cwd)
  | [], _, c, hc => by
    cases b with
    | cwd =>
      cases c with
      | nil => rfl
      | cons x c =>
        have hx : x ≠ '/' := fun e => hc (by simp [e])
        have ht : isAbs (x :: c) = false := by simp [isAbs, hx]
        exact ht
    | one | two => rfl
  | x :: l, h, c, hc => by
    obtain ⟨hx, hs⟩ := h x (by simp)
    have ih := isAbs_foldr b (fun y hy => h y (List.mem_cons_of_mem _ hy)) hs
    rw [List.foldr_cons, addName_of_needs (needsSlash_addName hx hs), ← ih]
    have hne : addName (l.foldr (fun c out => addName out c) b.text) x ≠ [] := fun e => by
      have := congrArg List.length e
      rw [length_addName, List.length_nil] at this
      have := List.length_pos_of_ne_nil hx
      omega
    rw [isAbs, isAbs, List.head?_append_of_ne_nil _ hne]

theorem isAbs_addName (h : o.Ok) (hc : '/' ∉ c) : isAbs (addName o.text c) = decide (o.base ≠ .cwd) :=
  isAbs_foldr o.base (fun _ => h.mem_pieces) hc

/-! ## The location of a place -/

@[simp] theorem loc_push (o : Place) (cwd : Loc) (c : Str) : (o.push c).loc cwd = c :: o.loc cwd := rfl

@[simp] theorem loc_up (o : Place) (cwd : Loc) : o.up.loc cwd = (o.loc cwd).tail := by
  cases hn : o.names with
  | nil =>
    by_cases hb : o.base = .cwd
    · simp [up, loc, hn, hb]
    · simp [up, loc, hn, hb]
  | cons c ℓ => simp [up, loc, hn]

theorem Ok.push (h : o.Ok) (hc : ValidName c) : (o.push c).Ok where
  valid := by
    intro x hx
    rcases List.mem_cons.mp hx with rfl | hx
    · exact hc
    · exact h.valid x hx
  nup := h.nup

theorem Ok.up (h : o.Ok) : o.up.Ok := by
  cases hn : o.names with
  | nil =>
    by_cases hb : o.base = .cwd
    · refine ⟨fun x hx => ?_, fun hne => ?_⟩
      · simp [Place.up, hn, hb] at hx
      · simp [Place.up, hn, hb] at hne
    · have : o.up = o := by simp [Place.up, hn, hb]
      rw [this]; exact h
  | cons c ℓ =>
    have : o.up = { o with names := ℓ } := by simp [Place.up, hn]
    rw [this]
    exact ⟨fun x hx => h.valid x (by simp [hn, hx]), h.nup⟩

theorem Ok.start (h : o.Ok) (t : Str) : (o.start t).Ok := by
  unfold Place.start
  split
  · exact ⟨nofun, fun _ => rfl⟩
  · exact h

theorem loc_start (o : Place) (cwd : Loc) (t : Str) : (o.start t).loc cwd = if isAbs t then [] else o.loc cwd := by
  unfold Place.start
  split
  · split <;> rfl
  · rfl

theorem needsSlash_render {ℓ : Loc} (hv : ValidLoc ℓ) (h : ℓ ≠ []) : needsSlash (render ℓ) = true := by
  cases ℓ with
  | nil => exact absurd rfl h
  | cons c ℓ =>
    obtain ⟨hc, hs, -⟩ := hv c (by simp)
    rw [render_cons, List.append_cons]
    exact needsSlash_append hc hs

theorem text_eq_final (h : o.Ok) (hb : o.base ≠ .cwd) (cwd : Loc) : o.text = o.final cwd := by
  have hf : ∀ {ℓ : Loc}, ValidLoc ℓ → ℓ.foldr (fun c out => addName out c) ['/'] = pathOf ℓ ∧
      ℓ.foldr (fun c out => addName out c) ['/', '/'] = '/' :: pathOf ℓ := by
    intro ℓ hv
    induction ℓ with
    | nil => exact ⟨rfl, rfl⟩
    | cons c ℓ ih =>
      obtain ⟨h1, h2⟩ := ih fun x hx => hv x (by simp [hx])
      rw [List.foldr_cons, List.foldr_cons, h1, h2]
      by_cases hℓ : ℓ = []
      · subst hℓ; exact ⟨rfl, rfl⟩
      · have hs : needsSlash (render ℓ) = true := needsSlash_render (fun x hx => hv x (by simp [hx])) hℓ
        have hs' : needsSlash ('/' :: render ℓ) = true := by
          obtain ⟨x, hx, hne⟩ := needsSlash_iff.mp hs
          refine needsSlash_iff.mpr ⟨x, ?_, hne⟩
          rw [List.getLast?_cons, hx]; rfl
        simp only [pathOf, hℓ, if_false, reduceCtorEq]
        exact ⟨addName_of_needs hs c, addName_of_needs hs' c⟩
  have hn : o.text = o.names.foldr (fun c out => addName out c) o.base.text := by
    rw [text, h.nup hb, List.replicate_zero, List.append_nil]
  rw [hn]
  cases hb' : o.base with
  | cwd => exact absurd hb' hb
  | one => simp [final, loc, hb', Base.text, (hf h.valid).1]
  | two => simp [final, hb', Base.text, (hf h.valid).2]

end Place

end Iamroot
