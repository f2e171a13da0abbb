import Iamroot.Place

/-!
# The symlink walk without its buffers

`advance` is the walk of `__realpathat` on places and components. It gives up,
and says nothing, as soon as one of the strings that the code has to build is
not shorter than `PATH_MAX`: the output with the next component, the unread
part behind the text of a link, and at the end the path itself. What it does
say is what a walk of the library says about the locations.
-/

namespace Iamroot

open FileTree

section
variable (t : DirTree Str) (cwd : Loc)

def advanceWith (expand : Place → List (Comp Str) → Option (Except Err Place)) :
    Place → List (Comp Str) → Option (Except Err Place)
  | o, [] => if o.endFits cwd then some (.ok o) else none
  | o, c :: cs =>
    if pathMax ≤ (addName o.text (compText c)).length then none
    else
      match c with
      | .empty | .dot =>
        -- the test for a directory waits for the next component
        if cs.isEmpty && t.isFile (o.loc cwd) then some (.error .notDir) else advanceWith expand o cs
      | .up => if t.isFile (o.loc cwd) then some (.error .notDir) else advanceWith expand o.up cs
      | .name n =>
        if t.isFile (o.loc cwd) then some (.error .notDir)
        else
          match t.node (n :: o.loc cwd) with
          | some (.link _ target) =>
            if pathMax ≤ (unparse (target ++ cs)).length then none
            else expand (o.start (unparse target)) (target ++ cs)
          | _ => advanceWith expand (o.push n) cs

/-- The walk that may expand `n` links. -/
def advance : Nat → Place → List (Comp Str) → Option (Except Err Place)
  | 0 => advanceWith t cwd fun _ _ => some (.error .loop)
  | n + 1 => advanceWith t cwd (advance n)

def onLink : Nat → Place → List (Comp Str) → Option (Except Err Place)
  | 0 => fun _ _ => some (.error .loop)
  | n + 1 => advance t cwd n

end

/-- The rules that `__realpathat` follows: `..` goes up, links are followed, missing names are kept. -/
def tolerant : Rules Str := { top := [], stop := [], follow := true, keep := true }

/-- The targets of the links are texts that have been read. -/
def Written (t : DirTree Str) : Prop :=
  ∀ ℓ absolute target, t.node ℓ = some (.link absolute target) →
    ∃ s : Str, s ≠ [] ∧ nul ∉ s ∧ absolute = isAbs s ∧ target = parse s

section
variable {t : DirTree Str} {cwd : Loc} {n : Nat} {o : Place} {c : Comp Str} {cs : List (Comp Str)}
  {r : Except Err Place}

theorem advance_eq (n : Nat) : advance t cwd n = advanceWith t cwd (onLink t cwd n) := by
  cases n <;> rfl

theorem advance_nil : advance t cwd n o [] = if o.endFits cwd then some (.ok o) else none := by
  rw [advance_eq]; rfl

theorem advance_short (h : advance t cwd n o (c :: cs) = some r) : (addName o.text (compText c)).length < pathMax := by
  rw [advance_eq] at h
  unfold advanceWith at h
  split at h
  · cases h
  · omega

/-- A slash or a dot changes nothing when a component follows. -/
theorem advance_here (hc : c = .empty ∨ c = .dot) (hcs : cs ≠ []) (h : advance t cwd n o (c :: cs) = some r) :
    advance t cwd n o cs = some r := by
  have hs := advance_short h
  rw [advance_eq] at h ⊢
  unfold advanceWith at h
  rw [if_neg (Nat.not_le.mpr hs)] at h
  have he : cs.isEmpty = false := by simpa using hcs
  rcases hc with rfl | rfl <;> simpa only [he, Bool.false_and, Bool.false_eq_true, if_false] using h

theorem advance_here_nil (hc : c = .empty ∨ c = .dot) (h : advance t cwd n o [c] = some r) :
    if t.isFile (o.loc cwd) then r = .error .notDir else advance t cwd n o [] = some r := by
  have hs := advance_short h
  rw [advance_eq] at h ⊢
  unfold advanceWith at h
  rw [if_neg (Nat.not_le.mpr hs)] at h
  by_cases hf : t.isFile (o.loc cwd) = true
  · rw [if_pos hf]
    rcases hc with rfl | rfl <;> simpa [hf] using h.symm
  · rw [if_neg hf]
    have hf : t.isFile (o.loc cwd) = false := by simpa using hf
    rcases hc with rfl | rfl <;> simpa [hf] using h

theorem advance_dot_empty (h : advance t cwd n o [.dot] = some r) : advance t cwd n o [.empty] = some r := by
  have hs := advance_short h
  have hle : (addName o.text (compText .empty)).length ≤ (addName o.text (compText .dot)).length := by
    rw [Place.length_addName, Place.length_addName]
    simp [compText]
  rw [advance_eq] at h ⊢
  unfold advanceWith at h ⊢
  rw [if_neg (Nat.not_le.mpr hs)] at h
  rw [if_neg (Nat.not_le.mpr (Nat.lt_of_le_of_lt hle hs))]
  exact h

theorem advance_up (h : advance t cwd n o (.up :: cs) = some r) :
    if t.isFile (o.loc cwd) then r = .error .notDir else advance t cwd n o.up cs = some r := by
  have hs := advance_short h
  rw [advance_eq] at h ⊢
  unfold advanceWith at h
  rw [if_neg (Nat.not_le.mpr hs)] at h
  by_cases hf : t.isFile (o.loc cwd) = true
  · rw [if_pos hf]
    simpa only [hf, if_true, Option.some.injEq, eq_comm] using h
  · rw [if_neg hf]
    simpa only [hf, if_false, Bool.false_eq_true] using h

theorem advance_name {m : Str} (h : advance t cwd n o (.name m :: cs) = some r) :
    if t.isFile (o.loc cwd) then r = .error .notDir
    else
      match t.node (m :: o.loc cwd) with
      | some (.link _ target) => (unparse (target ++ cs)).length < pathMax ∧
        onLink t cwd n (o.start (unparse target)) (target ++ cs) = some r
      | _ => advance t cwd n (o.push m) cs = some r := by
  have hs := advance_short h
  rw [advance_eq] at h ⊢
  unfold advanceWith at h
  rw [if_neg (Nat.not_le.mpr hs)] at h
  by_cases hf : t.isFile (o.loc cwd) = true
  · rw [if_pos hf]
    simpa only [hf, if_true, Option.some.injEq, eq_comm] using h
  · rw [if_neg hf]
    simp only [hf, if_false, Bool.false_eq_true] at h
    cases hn : t.node (m :: o.loc cwd) with
    | none => simpa only [hn] using h
    | some x =>
      cases x with
      | dir | file => simpa only [hn] using h
      | link absolute target =>
        simp only [hn] at h ⊢
        split at h
        · cases h
        · rename_i hl
          exact ⟨Nat.not_le.mp hl, h⟩

theorem advance_file (hf : t.isFile (o.loc cwd) = true) : ∀ {cs : List (Comp Str)}, cs ≠ [] →
    advance t cwd n o cs = some r → r = .error .notDir
  | [], hcs, _ => absurd rfl hcs
  | c :: cs, _, h => by
    have hend : (c = .empty ∨ c = .dot) → r = .error .notDir := fun hc => by
      cases hcs : cs with
      | nil =>
        rw [hcs] at h
        have := advance_here_nil hc h
        rwa [if_pos hf] at this
      | cons d cs' =>
        have := advance_here hc (hcs ▸ List.cons_ne_nil d cs') h
        exact advance_file hf (hcs ▸ List.cons_ne_nil d cs') this
    cases c with
    | empty => exact hend (Or.inl rfl)
    | dot => exact hend (Or.inr rfl)
    | up =>
      have := advance_up h
      rwa [if_pos hf] at this
    | name m =>
      have := advance_name h
      rwa [if_pos hf] at this

theorem advance_cons_mono {cs' : List (Comp Str)} (he : cs.isEmpty = cs'.isEmpty)
    (hlen : ∀ target, (unparse (target ++ cs')).length ≤ (unparse (target ++ cs)).length)
    (hrec : ∀ o, advance t cwd n o cs = some r → advance t cwd n o cs' = some r)
    (hlink : ∀ o target, onLink t cwd n o (target ++ cs) = some r → onLink t cwd n o (target ++ cs') = some r)
    (h : advance t cwd n o (c :: cs) = some r) : advance t cwd n o (c :: cs') = some r := by
  have hs := advance_short h
  rw [advance_eq] at hrec h ⊢
  unfold advanceWith at h ⊢
  rw [if_neg (Nat.not_le.mpr hs)] at h ⊢
  cases c with
  | empty | dot =>
    simp only [← he]
    by_cases hc : (cs.isEmpty && t.isFile (o.loc cwd)) = true
    · simpa only [hc, if_true] using h
    · simp only [hc, if_false, Bool.false_eq_true] at h ⊢
      exact hrec o h
  | up =>
    by_cases hf : t.isFile (o.loc cwd) = true
    · simpa only [hf, if_true] using h
    · simp only [hf, if_false, Bool.false_eq_true] at h ⊢
      exact hrec o.up h
  | name m =>
    by_cases hf : t.isFile (o.loc cwd) = true
    · simpa only [hf, if_true] using h
    · simp only [hf, if_false, Bool.false_eq_true] at h ⊢
      cases hn : t.node (m :: o.loc cwd) with
      | none =>
        simp only [hn] at h ⊢
        exact hrec _ h
      | some x =>
        cases x with
        | dir | file =>
          simp only [hn] at h ⊢
          exact hrec _ h
        | link absolute target =>
          simp only [hn] at h ⊢
          split at h
          · cases h
          · rename_i hl
            rw [if_neg (Nat.not_le.mpr (Nat.lt_of_le_of_lt (hlen target) (Nat.not_le.mp hl)))]
            exact hlink _ target h

theorem length_join_drop (post : List Str) (hp : post ≠ []) : ∀ pre : List Str,
    (join (pre ++ post)).length ≤ (join (pre ++ [] :: post)).length
  | [] => by
    rw [List.nil_append, List.nil_append, join_cons _ hp]
    simp
  | c :: pre => by
    have ih := length_join_drop post hp pre
    rw [List.cons_append, List.cons_append, join_cons _ (by simp [hp]), join_cons _ (by simp)]
    simp only [List.length_append, List.length_cons]
    omega

theorem advance_drop_empty {post : List (Comp Str)} (hp : post ≠ []) : ∀ (n : Nat) (pre : List (Comp Str)) (o : Place),
    advance t cwd n o (pre ++ .empty :: post) = some r → advance t cwd n o (pre ++ post) = some r := by
  have hlen : ∀ pre target : List (Comp Str),
      (unparse (target ++ (pre ++ post))).length ≤ (unparse (target ++ (pre ++ .empty :: post))).length := by
    intro pre target
    have := length_join_drop (post.map compText) (by simpa using hp) ((target ++ pre).map compText)
    simpa only [unparse, List.map_append, List.map_cons, List.append_assoc, compText] using this
  have hemp : ∀ pre : List (Comp Str), (pre ++ .empty :: post).isEmpty = (pre ++ post).isEmpty := by
    intro pre
    cases pre with
    | nil =>
      cases post with
      | nil => exact absurd rfl hp
      | cons d post => rfl
    | cons d pre => rfl
  intro n
  induction n with
  | zero =>
    intro pre
    induction pre with
    | nil => exact fun o h => advance_here (Or.inl rfl) hp h
    | cons c pre ih => exact fun o h => advance_cons_mono (hemp pre) (hlen pre) ih (fun _ _ h => h) h
  | succ n hn =>
    intro pre
    induction pre with
    | nil => exact fun o h => advance_here (Or.inl rfl) hp h
    | cons c pre ih =>
      refine fun o h => advance_cons_mono (hemp pre) (hlen pre) ih (fun o target h => ?_) h
      have h' : advance t cwd n o ((target ++ pre) ++ .empty :: post) = some r := by rw [List.append_assoc]; exact h
      have := hn (target ++ pre) o h'
      rw [List.append_assoc] at this
      exact this

/-! ## What it says about the locations -/

theorem move_here_tolerant {ℓ : Loc} (hc : c = .empty ∨ c = .dot) :
    t.move tolerant ℓ c cs = if t.isFile ℓ then .stop .notDir else .go ℓ := by
  rcases hc with rfl | rfl <;> rfl

theorem move_up_tolerant {ℓ : Loc} :
    t.move tolerant ℓ .up cs = if t.isFile ℓ then .stop .notDir else .go ℓ.tail := by
  have hp : tolerant.parent ℓ = ℓ.tail := by
    cases ℓ <;> rfl
  rw [← hp]; rfl

theorem move_name_tolerant {ℓ : Loc} {m : Str} : t.move tolerant ℓ (.name m) cs =
    if t.isFile ℓ then .stop .notDir
    else
      match t.node (m :: ℓ) with
      | some (.link absolute target) => .expand (if absolute then [] else ℓ) target
      | _ => .go (m :: ℓ) := by
  by_cases hf : t.isFile ℓ = true
  · have hn : t.node (m :: ℓ) = none := by
      by_contra hne
      rw [DirTree.isFile_parent hne] at hf
      cases hf
    simp only [DirTree.move, hn, hf, if_true]
  · simp only [hf, if_false, Bool.false_eq_true]
    cases hn : t.node (m :: ℓ) with
    | none => simp only [DirTree.move, hn, hf, tolerant, Bool.true_or, if_true, if_false, Bool.false_eq_true]
    | some x => cases x <;> simp only [DirTree.move, hn, tolerant, Bool.true_or, if_true]

/-- Induction on what is left to walk: over the links that are left, and for each number of
them over the components. -/
theorem advance_ind {P : Nat → Place → List (Comp Str) → Prop}
    (nil : ∀ n o, o.endFits cwd = true → r = .ok o → P n o [])
    (stop : ∀ n o c cs, t.isFile (o.loc cwd) = true → r = .error .notDir → P n o (c :: cs))
    (here : ∀ n o c cs, c = .empty ∨ c = .dot → t.isFile (o.loc cwd) = false → P n o cs → P n o (c :: cs))
    (up : ∀ n o cs, (addName o.text dotdot).length < pathMax → t.isFile (o.loc cwd) = false → P n o.up cs →
      P n o (.up :: cs))
    (push : ∀ n o m cs, (addName o.text m).length < pathMax → t.isFile (o.loc cwd) = false →
      t.isLink (m :: o.loc cwd) = false → P n (o.push m) cs → P n o (.name m :: cs))
    (loop : ∀ o m cs absolute target, t.node (m :: o.loc cwd) = some (.link absolute target) → r = .error .loop →
      P 0 o (.name m :: cs))
    (link : ∀ n o m cs absolute target, t.node (m :: o.loc cwd) = some (.link absolute target) →
      P n (o.start (unparse target)) (target ++ cs) → P (n + 1) o (.name m :: cs)) :
    ∀ (n : Nat) (cs : List (Comp Str)) (o : Place), advance t cwd n o cs = some r → P n o cs := by
  have hnil : ∀ n o, advance t cwd n o [] = some r → P n o [] := by
    intro n o h
    rw [advance_nil] at h
    split at h
    · exact nil n o ‹_› (Option.some.inj h).symm
    · cases h
  have hcons : ∀ n c cs, (∀ o, advance t cwd n o cs = some r → P n o cs) →
      (∀ o m absolute target, t.node (m :: o.loc cwd) = some (.link absolute target) →
        onLink t cwd n (o.start (unparse target)) (target ++ cs) = some r → P n o (.name m :: cs)) →
      ∀ o, advance t cwd n o (c :: cs) = some r → P n o (c :: cs) := by
    intro n c cs hrec hlink o h
    cases hf : t.isFile (o.loc cwd) with
    | true => exact stop n o c cs hf (advance_file hf (List.cons_ne_nil c cs) h)
    | false =>
      have hhere : c = .empty ∨ c = .dot → P n o (c :: cs) := by
        intro hc
        refine here n o c cs hc hf (hrec o ?_)
        by_cases hcs : cs = []
        · subst hcs
          have := advance_here_nil hc h
          rwa [if_neg (by rw [hf]; decide)] at this
        · exact advance_here hc hcs h
      have hs := advance_short h
      cases c with
      | empty => exact hhere (Or.inl rfl)
      | dot => exact hhere (Or.inr rfl)
      | up =>
        have hu := advance_up h
        rw [if_neg (by rw [hf]; decide)] at hu
        exact up n o cs hs hf (hrec o.up hu)
      | name m =>
        have hm := advance_name h
        rw [if_neg (by rw [hf]; decide)] at hm
        have hpl : t.isLink (m :: o.loc cwd) = false → advance t cwd n (o.push m) cs = some r → P n o (.name m :: cs) :=
          fun hl ha => push n o m cs hs hf hl (hrec _ ha)
        cases hn : t.node (m :: o.loc cwd) with
        | none =>
          rw [hn] at hm
          exact hpl (by rw [DirTree.isLink, hn]) hm
        | some x =>
          rw [hn] at hm
          cases x with
          | dir | file => exact hpl (by rw [DirTree.isLink, hn]) hm
          | link absolute target => exact hlink o m absolute target hn hm.2
  intro n
  induction n with
  | zero =>
    intro cs
    induction cs with
    | nil => exact hnil 0
    | cons c cs ih =>
      refine hcons 0 c cs ih fun o m absolute target hn hl => ?_
      exact loop o m cs absolute target hn (Option.some.inj hl).symm
  | succ n hn =>
    intro cs
    induction cs with
    | nil => exact hnil (n + 1)
    | cons c cs ih =>
      refine hcons (n + 1) c cs ih fun o m absolute target hl ha => ?_
      exact link n o m cs absolute target hl (hn _ _ ha)

/-- The walk on places, where it says something, ends where the library's walk ends. -/
theorem walk_of_advance (ht : Written t) : ∀ (n : Nat) (cs : List (Comp Str)) (o : Place),
    advance t cwd n o cs = some r → (t.walk tolerant n (o.loc cwd) cs).map Prod.fst = r.map (Place.loc cwd) := by
  have hfile : ∀ {m : Str} {o : Place} {absolute target}, t.node (m :: o.loc cwd) = some (.link absolute target) →
      t.isFile (o.loc cwd) = false := fun hn => DirTree.isFile_parent (by rw [hn]; nofun)
  apply advance_ind
  case nil =>
    intro n o _ hr
    rw [hr, DirTree.walk_nil]; rfl
  case stop =>
    intro n o c cs hf hr
    have hstop : t.move tolerant (o.loc cwd) c cs = .stop .notDir := by
      cases c with
      | empty => exact (move_here_tolerant (Or.inl rfl)).trans (if_pos hf)
      | dot => exact (move_here_tolerant (Or.inr rfl)).trans (if_pos hf)
      | up => exact move_up_tolerant.trans (if_pos hf)
      | name m => exact move_name_tolerant.trans (if_pos hf)
    rw [DirTree.walk_stop hstop, hr]; rfl
  case here =>
    intro n o c cs hc hf ih
    rwa [DirTree.walk_go ((move_here_tolerant hc).trans (if_neg (by rw [hf]; decide)))]
  case up =>
    intro n o cs _ hf ih
    rwa [DirTree.walk_go (move_up_tolerant.trans (if_neg (by rw [hf]; decide))), ← Place.loc_up]
  case push =>
    intro n o m cs _ hf hl ih
    have hmv : t.move tolerant (o.loc cwd) (.name m) cs = .go (m :: o.loc cwd) := by
      rw [move_name_tolerant, if_neg (by rw [hf]; decide)]
      unfold DirTree.isLink at hl
      split
      · rename_i hx; simp [hx] at hl
      · rfl
    rwa [DirTree.walk_go hmv]
  case loop =>
    intro o m cs absolute target hn hr
    rw [DirTree.walk_loop (by rw [move_name_tolerant, hfile hn, hn]; rfl), hr]; rfl
  case link =>
    intro n o m cs absolute target hn ih
    obtain ⟨s, -, -, rfl, rfl⟩ := ht _ _ _ hn
    rw [DirTree.walk_expand (by rw [move_name_tolerant, hfile hn, hn]; rfl)]
    rw [Place.loc_start, unparse_parse] at ih
    exact ih

def NamesOk (cs : List (Comp Str)) : Prop := ∀ m, .name m ∈ cs → ValidName m

theorem namesOk_parse {s : Str} (h : nul ∉ s) : NamesOk (parse s) := by
  intro m hm
  obtain ⟨c, hc, hcm⟩ := List.mem_map.mp hm
  have hmc := compOf_eq_name hcm
  subst hmc
  refine ⟨?_, no_slash_of_mem_comps hc, fun hn => h ?_, ?_, ?_⟩
  · rintro rfl; cases hcm
  · exact mem_of_mem_comps hc hn
  · rintro rfl; cases hcm
  · rintro rfl; cases hcm

theorem advance_inv (ht : Written t) {I : Place → Prop}
    (hup : ∀ o, I o → (addName o.text dotdot).length < pathMax → I o.up)
    (hpush : ∀ o m, I o → ValidName m → t.isFile (o.loc cwd) = false → t.isLink (m :: o.loc cwd) = false →
      (addName o.text m).length < pathMax → I (o.push m))
    (hstart : ∀ o ℓ s, I o → t.node ℓ = some (.link (isAbs s) (parse s)) → I (o.start s)) {o' : Place}
    (h : advance t cwd n o cs = some (.ok o')) (hcs : NamesOk cs) (ho : I o) : I o' := by
  have htail : ∀ {c : Comp Str} {cs}, NamesOk (c :: cs) → NamesOk cs := fun h m hm => h m (List.mem_cons_of_mem _ hm)
  refine advance_ind (P := fun _ o cs => NamesOk cs → I o → I o') ?nil ?stop ?here ?up ?push ?loop ?link n cs o h hcs ho
  case nil =>
    intro n o _ hr _ ho
    cases hr
    exact ho
  case stop =>
    intro n o c cs _ hr
    cases hr
  case here => exact fun n o c cs _ _ ih hcs ho => ih (htail hcs) ho
  case up => exact fun n o cs hl _ ih hcs ho => ih (htail hcs) (hup o ho hl)
  case push => exact fun n o m cs hl hf hk ih hcs ho => ih (htail hcs) (hpush o m ho (hcs m List.mem_cons_self) hf hk hl)
  case loop =>
    intro o m cs _ _ _ hr
    cases hr
  case link =>
    intro n o m cs absolute target hn ih hcs ho
    obtain ⟨s, -, hs, rfl, rfl⟩ := ht _ _ _ hn
    rw [unparse_parse] at ih
    refine ih (fun x hx => ?_) (hstart o _ s ho hn)
    rcases List.mem_append.mp hx with hx | hx
    · exact namesOk_parse hs x hx
    · exact htail hcs x hx

def NoDouble (t : DirTree Str) : Prop := ∀ ℓ s, t.node ℓ = some (.link (isAbs s) (parse s)) → double s = false

structure Place.Good (t : DirTree Str) (cwd : Loc) (o : Place) : Prop where
  ok : o.Ok
  clear : t.Clear (o.loc cwd)
  short : o.text.length < pathMax

theorem Place.length_up (o : Place) : o.up.text.length ≤ (addName o.text dotdot).length := by
  cases hn : o.names with
  | nil =>
    by_cases hb : o.base = .cwd
    · have : o.up.text = addName o.text dotdot := by simp [Place.text, Place.up, hn, hb, List.replicate_succ]
      rw [this]
    · have : o.up = o := by simp [Place.up, hn, hb]
      rw [this, Place.length_addName]; omega
  | cons c ℓ =>
    have : o.text = addName o.up.text c := by simp only [Place.text, Place.up, hn]; rfl
    rw [this, Place.length_addName, Place.length_addName]; omega

theorem Place.Good.start {o : Place} (h : o.Good t cwd) (s : Str) : (o.start s).Good t cwd where
  ok := h.ok.start s
  clear := by
    rw [Place.loc_start]
    split
    · trivial
    · exact h.clear
  short := by
    unfold Place.start
    split
    · split <;> decide
    · exact h.short

theorem good_of_advance (ht : Written t) {o' : Place} (h : advance t cwd n o cs = some (.ok o')) (hcs : NamesOk cs)
    (ho : o.Good t cwd) : o'.Good t cwd := by
  refine advance_inv ht (fun o ho hl => ⟨ho.ok.up, ?_, Nat.lt_of_le_of_lt o.length_up hl⟩)
    (fun o m ho hm hf hk hl => ⟨ho.ok.push hm, ⟨ho.clear, hf, hk⟩, hl⟩) (fun o _ s ho _ => ho.start s) h hcs ho
  rw [Place.loc_up]
  have hcl := ho.clear
  cases hℓ : o.loc cwd with
  | nil => trivial
  | cons m ℓ => rw [hℓ] at hcl; exact hcl.1

theorem base_of_advance (ht : Written t) (hd : NoDouble t) {o' : Place} (h : advance t cwd n o cs = some (.ok o'))
    (hcs : NamesOk cs) (ho : o.base ≠ .two) : o'.base ≠ .two := by
  refine advance_inv (I := fun o => o.base ≠ .two) ht (fun o ho _ => ?_) (fun o m ho _ _ _ _ => ho) (fun o ℓ s ho hn => ?_)
    h hcs ho
  · unfold Place.up
    split
    · split
      · exact ho
      · exact ho
    · exact ho
  · unfold Place.start
    rw [hd ℓ s hn]
    split
    · nofun
    · exact ho

end

end Iamroot
