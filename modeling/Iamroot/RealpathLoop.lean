import Iamroot.RealpathTurn

/-!
# The symlink walk follows the walk on places

One turn of the loop, in a state that spells a place and an unread text, either
ends as the walk on places ends, or leads to a state that spells the next place
with a shorter text, or has expanded one more link. So the loop ends, and with
the same result, whatever the answers of the host are, as long as they are those
of one tree.
-/

namespace Iamroot

open FileTree

section
variable (h : Host) (env : Option Str) (errnoSave : Option Errno) (atflags : Word)

def Ends (s : Scan) (R : Ret Scan) : Prop := ∃ n, ∀ k, loop h env errnoSave atflags (n + k) s = R

def skipped (s : Scan) : Scan := { s with p := s.p + slashLen (s.stack.drop s.p) }

/-- The host asked about a component: the end of a turn that does ask. -/
def look (s : Scan) (c : Str) : Turn Scan :=
  if followSymlink atflags = false then skipReadlink s (piece s.output c) c.length (c = dotdot)
  else getxattrTurn h env errnoSave s (piece s.output c) c.length (c = dotdot)

variable {h env errnoSave atflags} {s s' : Scan} {R : Ret Scan}

theorem Ends.next (ht : turn h env errnoSave atflags s = .next s') (he : Ends h env errnoSave atflags (skipped s') R) :
    Ends h env errnoSave atflags s R := by
  obtain ⟨n, hn⟩ := he
  refine ⟨n + 1, fun k => ?_⟩
  rw [Nat.add_right_comm, loop, ht]
  exact hn k

theorem Ends.restart (ht : turn h env errnoSave atflags s = .restart s') (he : Ends h env errnoSave atflags s' R) :
    Ends h env errnoSave atflags s R := by
  obtain ⟨n, hn⟩ := he
  refine ⟨n + 1, fun k => ?_⟩
  rw [Nat.add_right_comm, loop, ht]
  exact hn k

theorem Ends.leave (ht : turn h env errnoSave atflags s = .leave s') : Ends h env errnoSave atflags s (.done s') :=
  ⟨1, fun k => by rw [Nat.add_comm, loop, ht]⟩

theorem Ends.fail {e : Errno} (ht : turn h env errnoSave atflags s = .fail e) :
    Ends h env errnoSave atflags s (.fail e) :=
  ⟨1, fun k => by rw [Nat.add_comm, loop, ht]⟩

end

/-! ## What the host says -/

/-- A place where the host is asked about the component `c`. `W` is what is known of the
working directory; it matters to the relative places only. -/
structure Asked (t : DirTree Str) (cwd : Loc) (W : Prop) (s : Scan) (o : Place) (c : Str) : Prop where
  ok : o.Ok
  based : o.base = .cwd → W
  clear : t.Clear (o.loc cwd)
  output : s.output = o.text
  noSlash : '/' ∉ c
  noNul : nul ∉ c
  notDot : c ≠ dot
  named : c = [] → o.names ≠ []
  short : (addName o.text c).length < pathMax
  room : 0 < s.p
  inStack : s.p ≤ pathMax

structure Sees (h : Host) (env : Option Str) (errnoSave : Option Errno) (atflags : Word) (t : DirTree Str) (cwd : Loc)
    (W : Prop) : Prop where
  file : ∀ {s o c}, Asked t cwd W s o c → t.isFile (o.loc cwd) = true →
    look h env errnoSave atflags s c = .fail .ENOTDIR
  link : ∀ {s o c absolute target}, Asked t cwd W s o c → ValidName c →
    t.node (c :: o.loc cwd) = some (.link absolute target) →
    ∃ txt, txt ≠ [] ∧ nul ∉ seen env txt ∧ absolute = isAbs (seen env txt) ∧ target = parse (seen env txt) ∧
      (txt.length < s.p → ∃ e, look h env errnoSave atflags s c =
        if s.cnt + 1 = symloopMax then .fail .ELOOP else followLink env { s with errno := e } txt)
  plain : ∀ {s o c}, Asked t cwd W s o c → t.isFile (o.loc cwd) = false →
    (ValidName c → t.isLink (c :: o.loc cwd) = false) →
    ∃ e, look h env errnoSave atflags s c =
      skipReadlink { s with errno := e } (piece s.output c) c.length (c = dotdot)

/-! ## The texts -/

theorem Rest.dropWhile (u : Str) : Rest (u.dropWhile (· ≠ '/')) := by
  cases hd : u.dropWhile (fun c : Char => decide (c ≠ '/')) with
  | nil => exact Or.inl rfl
  | cons x w =>
    have hx := List.head?_dropWhile_not (fun c : Char => decide (c ≠ '/')) u
    rw [hd] at hx
    have hx : x = '/' := by simpa using hx
    exact Or.inr ⟨w, by rw [hx]⟩

theorem parse_comp {c v : Str} (hc : '/' ∉ c) (hv : Rest v) : parse (c ++ v) = compOf c :: (parse v).tail := by
  rcases hv with rfl | ⟨w, rfl⟩
  · rw [List.append_nil, parse_of_no_slash hc]
    rfl
  · rw [parse_append, parse_of_no_slash hc, parse_slash]
    rfl

theorem parse_append_rest (t : Str) {v : Str} (hv : Rest v) : parse (t ++ v) = parse t ++ (parse v).tail := by
  rcases hv with rfl | ⟨w, rfl⟩
  · rw [List.append_nil]
    exact (List.append_nil _).symm
  · rw [parse_append, parse_slash]
    rfl

theorem isAbs_append {t : Str} (ht : t ≠ []) (v : Str) : isAbs (t ++ v) = isAbs t := by
  unfold isAbs
  rw [List.head?_append_of_ne_nil _ ht]

theorem isAbs_comp {c v : Str} (hc : '/' ∉ c) (h0 : c ≠ [] ∨ v = []) : isAbs (c ++ v) = false := by
  cases c with
  | nil =>
    rw [h0.resolve_left (not_not_intro rfl)]
    rfl
  | cons x c =>
    have hx : x ≠ '/' := fun e => hc (by simp [e])
    simp [isAbs, hx]

theorem not_isAbs_dropWhile (v : Str) : isAbs (v.dropWhile (· = '/')) = false := by
  unfold isAbs
  have := List.head?_dropWhile_not (fun c : Char => decide (c = '/')) v
  cases hd : (v.dropWhile (fun c : Char => decide (c = '/'))).head? with
  | none => rfl
  | some x =>
    rw [hd] at this
    simpa using this

theorem double_append {t : Str} (ht : t ≠ []) {v : Str} (hv : t.getLast? = some '/' → isAbs v = false) :
    double (t ++ v) = double t := by
  match t with
  | [] => exact absurd rfl ht
  | [x] =>
    by_cases hx : x = '/'
    · subst hx
      have := hv rfl
      cases v with
      | nil => rfl
      | cons y v =>
        have hy : y ≠ '/' := by simpa [isAbs] using this
        simp [double, hy]
    · simp [double, hx]
  | [x, y] =>
    by_cases hy : y = '/'
    · subst hy
      have := hv rfl
      cases v with
      | nil => rfl
      | cons z v =>
        have hz : z ≠ '/' := by simpa [isAbs] using this
        simp [double, hz]
    · simp [double, hy]
  | x :: y :: z :: t => rfl

theorem restAfter_cases (t v : Str) :
    (t.getLast? = some '/' ∧ restAfter t v = v.dropWhile (· = '/')) ∨ (t.getLast? ≠ some '/' ∧ restAfter t v = v) := by
  unfold restAfter
  split
  · exact Or.inl ⟨‹_›, rfl⟩
  · exact Or.inr ⟨‹_›, rfl⟩

theorem start_restAfter (o : Place) {t : Str} (ht : t ≠ []) (v : Str) : o.start (t ++ restAfter t v) = o.start t := by
  unfold Place.start
  rw [isAbs_append ht, double_append ht fun hl => ?_]
  rcases restAfter_cases t v with ⟨-, hr⟩ | ⟨hn, -⟩
  · rw [hr]
    exact not_isAbs_dropWhile v
  · exact absurd hl hn

section
variable {t : DirTree Str} {cwd : Loc} {n : Nat} {o : Place} {r : Except Err Place}

theorem advance_strip {pre : List (Comp Str)} : ∀ v : Str, advance t cwd n o (pre ++ parse v) = some r →
    advance t cwd n o (pre ++ parse (v.dropWhile (· = '/'))) = some r
  | [], ha => ha
  | x :: v, ha => by
    by_cases hx : x = '/'
    · subst hx
      rw [parse_slash] at ha
      rw [List.dropWhile_cons_of_pos (by simp)]
      exact advance_strip v (advance_drop_empty (parse_ne_nil v) n pre o ha)
    · rw [List.dropWhile_cons_of_neg (by simpa using hx)]
      exact ha

theorem advance_restAfter {s v : Str} (hv : Rest v) (hs : s ≠ [])
    (ha : advance t cwd n o (parse s ++ (parse v).tail) = some r) :
    advance t cwd n o (parse (s ++ restAfter s v)) = some r := by
  rcases restAfter_cases s v with ⟨hl, hr⟩ | ⟨-, hr⟩
  · rw [hr]
    rcases hv with rfl | ⟨w, rfl⟩
    · have : (parse ([] : Str)).tail = [] := rfl
      rw [this, List.append_nil] at ha
      rw [List.dropWhile_nil, List.append_nil]
      exact ha
    · obtain ⟨s₀, rfl⟩ := List.getLast?_eq_some_iff.mp hl
      have h0 : parse (s₀ ++ ['/']) = parse s₀ ++ [.empty] := parse_append s₀ []
      have h1 : s₀ ++ ['/'] ++ ('/' :: w).dropWhile (· = '/') = s₀ ++ '/' :: ('/' :: w).dropWhile (· = '/') := by
        rw [List.append_assoc]; rfl
      rw [h1, parse_append]
      refine advance_strip _ ?_
      rw [h0, parse_slash, List.append_assoc] at ha
      exact ha
  · rw [hr, parse_append_rest s hv]
    exact ha

end

/-! ## One turn -/

/-- What is left of the walk on places when the unread text is `u`. Without the test for
a directory, nothing is left of an empty text. -/
def Todo (t : DirTree Str) (cwd : Loc) (r : Except Err Place) (checkDir : Bool) (o : Place) (u : Str) (n : Nat) : Prop :=
  if u = [] ∧ checkDir = false then advance t cwd n o [] = some r else advance t cwd n (o.start u) (parse u) = some r

/-- The state spells the place `o`, the text `u` is unread, and `n` links may still be expanded. -/
structure Sim (t : DirTree Str) (cwd : Loc) (W : Prop) (s : Scan) (o : Place) (u : Str) (n : Nat) : Prop where
  holds : s.Holds u
  short : u.length < pathMax
  output : s.output = o.text
  nup : s.nup = o.nup
  cnt : s.cnt + n + 1 = symloopMax
  ok : o.Ok
  named : s.checkDir = true → o.names ≠ []
  based : isAbs u = false → o.base = .cwd → W
  clear : isAbs u = false → t.Clear (o.loc cwd)
  dir : isAbs u = false → s.checkDir = false → u ≠ [] → t.isFile (o.loc cwd) = false

def Agrees (cwd : Loc) (W : Prop) (R : Ret Scan) : Except Err Place → Prop
  | .ok o => ∃ s, R = .done s ∧ s.output = o.text ∧ s.nup = o.nup ∧ o.Ok ∧ o.endFits cwd = true ∧
    (o.base = .cwd → W)
  | .error e => R = .fail (Err.errno e)

inductive Outcome (t : DirTree Str) (cwd : Loc) (W : Prop) (r : Except Err Place) (T : Turn Scan) (size n : Nat) : Prop where
  | stop (R : Ret Scan) (hR : Agrees cwd W R r) (hT : (∃ s, T = .leave s ∧ R = .done s) ∨ ∃ e, T = .fail e ∧ R = .fail e)
  | next (s : Scan) (o : Place) (u : Str) (hT : T = .next s) (hs : Sim t cwd W (skipped s) o u n)
      (ht : Todo t cwd r (skipped s).checkDir o u n) (hlt : 2 * u.length + (skipped s).checkDir.toNat < size)
  | restart (s : Scan) (o : Place) (u : Str) (k : Nat) (hk : n = k + 1) (hT : T = .restart s) (hs : Sim t cwd W s o u k)
      (ht : Todo t cwd r s.checkDir o u k)

section
variable {h : Host} {env : Option Str} {errnoSave : Option Errno} {atflags : Word} {t : DirTree Str} {cwd : Loc}
  {W : Prop} {s : Scan} {o : Place} {u v c : Str} {n : Nat} {r : Except Err Place} {T : Turn Scan} {size : Nat}

theorem Place.start_of_not_abs (hu : isAbs u = false) : o.start u = o := by
  rw [Place.start, if_neg (by rw [hu]; decide)]

theorem todo_strip {b : Bool} (hv : Rest v) (hb : b = false → v ≠ [] → t.isFile (o.loc cwd) = false)
    (hb' : v = [] → b = false)
    (ha : advance t cwd n o (parse v).tail = some r) : Todo t cwd r b o (v.dropWhile (· = '/')) n := by
  unfold Todo
  rw [Place.start_of_not_abs (not_isAbs_dropWhile v)]
  rcases hv with rfl | ⟨w, rfl⟩
  · rw [if_pos ⟨rfl, hb' rfl⟩]
    exact ha
  · rw [parse_slash, List.tail_cons] at ha
    rw [List.dropWhile_cons_of_pos (by simp)]
    have ha : advance t cwd n o ([] ++ parse (w.dropWhile (· = '/'))) = some r := advance_strip w ha
    split
    · rename_i hw
      rw [hw.1] at ha
      have := advance_here_nil (Or.inl rfl) ha
      rwa [if_neg (by rw [hb hw.2 (by simp)]; decide)] at this
    · exact ha

theorem Outcome.skip {s' : Scan} (hT : T = .next s') (hh : s'.Holds v) (hvs : v.length < pathMax) (ho : s'.output = o.text)
    (hn : s'.nup = o.nup) (hc : s'.cnt + n + 1 = symloopMax) (hok : o.Ok) (hcl : t.Clear (o.loc cwd))
    (hbs : o.base = .cwd → W) (hnm : s'.checkDir = true → o.names ≠ [])
    (hd : s'.checkDir = false → v ≠ [] → t.isFile (o.loc cwd) = false)
    (ht : Todo t cwd r s'.checkDir o (v.dropWhile (· = '/')) n) (hlt : 2 * v.length + s'.checkDir.toNat < size) :
    Outcome t cwd W r T size n := by
  have hle : (v.dropWhile (· = '/')).length ≤ v.length := (List.dropWhile_sublist _).length_le
  refine .next s' o _ hT ⟨hh.skip, by omega, ho, hn, hc, hok, hnm, fun _ => hbs, fun _ => hcl, fun _ hb hv => hd hb ?_⟩ ht ?_
  · rintro rfl
    exact hv rfl
  · show 2 * (v.dropWhile (· = '/')).length + s'.checkDir.toNat < size
    omega

theorem skipReadlink_up (l0 : Nat) (p : Str) :
    skipReadlink s p l0 true = .next { s with checkDir := false, output := popName s.output } := rfl

theorem skipReadlink_comp (hs : s.Holds v) (c : Str) : skipReadlink s (piece s.output c) c.length false = .next { s with
    output := if c = [] then s.output else addName s.output c
    checkDir := decide (v ≠ []) } := by
  have hd : s.stack[s.p]?.any (fun x => decide (x ≠ nul)) = decide (v ≠ []) := by
    rw [hs.first]
    cases v with
    | nil => decide
    | cons x v =>
      have hx : x ≠ nul := fun e => hs.noNul (by simp [e])
      simp [hx]
  simp only [skipReadlink, hd, Bool.false_eq_true, if_false, List.length_eq_zero_iff, addName_eq]

theorem text_up_ups (hn : o.names = []) (hb : o.base = .cwd) : addName o.text dotdot = o.up.text ∧ o.up.nup = o.nup + 1 := by
  simp [Place.text, Place.up, hn, hb, List.replicate_succ]

theorem outcome_abs (S : Sim t cwd W s o ('/' :: v) n) (D : Todo t cwd r s.checkDir o ('/' :: v) n) :
    Outcome t cwd W r (turn h env errnoSave atflags s) (2 * ('/' :: v).length + s.checkDir.toNat) n := by
  rw [Todo, if_neg (by simp), parse_slash] at D
  have ha := advance_here (Or.inl rfl) (parse_ne_nil v) D
  have hstart : (o.start ('/' :: v)).text = if double ('/' :: v) then ['/', '/'] else ['/'] := by
    simp only [Place.start, isAbs, List.head?_cons, beq_self_eq_true, if_true]
    split <;> rfl
  have hloc : (o.start ('/' :: v)).loc cwd = [] := by rw [Place.loc_start]; rfl
  have hf : t.isFile ((o.start ('/' :: v)).loc cwd) = false := by
    rw [hloc, DirTree.isFile, t.root_dir]
  have hh : ({ s with p := s.p + 1 } : Scan).Holds v := Scan.Holds.drop (c := ['/']) S.holds
  have hshort := S.short
  refine Outcome.skip (turn_abs S.holds) (v := v) ⟨hh.size, hh.unread, hh.noNul⟩ ?_ hstart.symm ?_ S.cnt (S.ok.start _) ?_
    (fun hb => ?_) (fun hb => ?_) (fun _ _ => hf) ?_ ?_
  · rw [List.length_cons] at hshort; omega
  · simp only [Place.start, isAbs, List.head?_cons, beq_self_eq_true, if_true]
  · rw [hloc]; trivial
  · have : (o.start ('/' :: v)).base ≠ .cwd := by
      simp only [Place.start, isAbs, List.head?_cons, beq_self_eq_true, if_true]
      split <;> simp
    exact absurd hb this
  · cases hb
  · have := todo_strip (b := false) (v := '/' :: v) (o := o.start ('/' :: v)) (Or.inr ⟨v, rfl⟩) (fun _ _ => hf) (by simp) ha
    rwa [List.dropWhile_cons_of_pos (by simp)] at this
  · simp only [List.length_cons, Bool.toNat_false]; omega

theorem outcome_leave (S : Sim t cwd W s o [] n) (hb : s.checkDir = false) (D : Todo t cwd r s.checkDir o [] n) :
    Outcome t cwd W r (turn h env errnoSave atflags s) size n := by
  rw [Todo, if_pos ⟨rfl, hb⟩, advance_nil] at D
  split at D
  · rename_i he
    refine .stop (.done s) ?_ (Or.inl ⟨s, turn_leave S.holds hb, rfl⟩)
    rw [← Option.some.inj D]
    exact ⟨s, rfl, S.output, S.nup, S.ok, he, S.based rfl⟩
  · cases D

theorem outcome_dot (S : Sim t cwd W s o (dot ++ v) n) (hv : Rest v) (ha : advance t cwd n o (.dot :: (parse v).tail) = some r) :
    Outcome t cwd W r (turn h env errnoSave atflags s) (2 * (dot ++ v).length + s.checkDir.toNat) n := by
  have hf : s.checkDir = false → t.isFile (o.loc cwd) = false := fun hb => S.dir rfl hb (by simp [dot])
  have hshort := S.short
  have hlen : (dot ++ v).length = v.length + 1 := by simp [dot]
  refine Outcome.skip (turn_dot S.holds hv) (v := v) (S.holds.drop) (by omega) S.output S.nup S.cnt S.ok (S.clear rfl)
    (S.based rfl) S.named (fun hb _ => hf hb) ?_ (by rw [hlen]; show 2 * v.length + s.checkDir.toNat < _; omega)
  by_cases h0 : v = []
  · subst h0
    rw [Todo, List.dropWhile_nil, Place.start_of_not_abs rfl]
    split
    · rename_i hb
      have := advance_here_nil (Or.inr rfl) ha
      rwa [if_neg (by rw [hf hb.2]; decide)] at this
    · exact advance_dot_empty ha
  · refine todo_strip hv (fun hb _ => hf hb) (fun e => absurd e h0) (advance_here (Or.inr rfl) ?_ ha)
    rcases hv with rfl | ⟨w, rfl⟩
    · exact absurd rfl h0
    · exact parse_ne_nil w

theorem Place.base_up (o : Place) : o.up.base = o.base := by
  unfold Place.up
  split
  · split <;> rfl
  · rfl

theorem clear_up (hcl : t.Clear (o.loc cwd)) (hf : t.isFile (o.loc cwd) = false) :
    t.Clear (o.up.loc cwd) ∧ t.isFile (o.up.loc cwd) = false := by
  rw [Place.loc_up]
  cases hℓ : o.loc cwd with
  | nil => rw [hℓ] at hf; exact ⟨trivial, hf⟩
  | cons m ℓ => rw [hℓ] at hcl; exact ⟨hcl.1, hcl.2.1⟩

section
variable {x : Scan} (S : Sim t cwd W s o (c ++ v) n) (hs : x.Holds v) (hv : Rest v) (h1 : x.output = s.output)
  (h2 : x.nup = s.nup) (h3 : x.cnt = s.cnt) (hcl : t.Clear (o.loc cwd)) (hbs : o.base = .cwd → W)
  (hf : t.isFile (o.loc cwd) = false)
include S hs hv h1 h2 h3 hcl hbs hf

theorem outcome_push (hc : ValidName c) (hl : t.isLink (c :: o.loc cwd) = false)
    (ha : advance t cwd n o (.name c :: (parse v).tail) = some r) :
    Outcome t cwd W r (skipReadlink x (piece x.output c) c.length false) (2 * (c ++ v).length + s.checkDir.toNat) n := by
  have hshort := S.short
  rw [List.length_append] at hshort ⊢
  have hpos : 0 < c.length := List.length_pos_of_ne_nil hc.1
  have ha' : advance t cwd n (o.push c) (parse v).tail = some r := by
    have hm := advance_name ha
    rw [if_neg (by rw [hf]; decide)] at hm
    unfold DirTree.isLink at hl
    split at hm
    · rename_i hx; simp [hx] at hl
    · exact hm
  refine Outcome.skip (o := o.push c) (skipReadlink_comp hs c) (v := v) ⟨hs.size, hs.unread, hs.noNul⟩ (by omega) ?_
    (h2.trans S.nup) ?_ (S.ok.push hc) ⟨hcl, hf, hl⟩ hbs (fun _ => List.cons_ne_nil _ _) (fun hb hne => ?_) ?_ ?_
  · rw [if_neg hc.1, h1, S.output]; rfl
  · show x.cnt + n + 1 = symloopMax
    rw [h3]; exact S.cnt
  · exact absurd (decide_eq_false_iff_not.mp hb) (not_not_intro hne)
  · exact todo_strip hv (fun hb hne => absurd (decide_eq_false_iff_not.mp hb) (not_not_intro hne))
      (fun h0 => by simp [h0]) ha'
  · have := Bool.toNat_le (decide (v ≠ []))
    show 2 * v.length + (decide (v ≠ [])).toNat < _
    omega

theorem outcome_pop (hc : c = dotdot) (hn : o.names ≠ [] ∨ o.base ≠ .cwd) (p : Str) (l0 : Nat)
    (ha : advance t cwd n o (.up :: (parse v).tail) = some r) :
    Outcome t cwd W r (skipReadlink x p l0 true) (2 * (c ++ v).length + s.checkDir.toNat) n := by
  subst hc
  have hshort := S.short
  have hlen : (dotdot ++ v).length = v.length + 2 := by simp [dotdot]
  have hu := advance_up ha
  rw [if_neg (by rw [hf]; decide)] at hu
  obtain ⟨hclu, hfu⟩ := clear_up hcl hf
  refine Outcome.skip (skipReadlink_up l0 p) (v := v) ⟨hs.size, hs.unread, hs.noNul⟩ (by omega) ?_ ?_ ?_ S.ok.up hclu
    (fun hb => hbs (Place.base_up o ▸ hb)) (fun hb => by cases hb) (fun _ _ => hfu) (todo_strip hv (fun _ _ => hfu) (fun _ => rfl) hu) ?_
  · show popName x.output = o.up.text
    rw [h1, S.output, Place.popName_text S.ok hn]
  · refine h2.trans (S.nup.trans ?_)
    rcases hn with hn | hn
    · cases hℓ : o.names with
      | nil => exact absurd hℓ hn
      | cons m ℓ => simp [Place.up, hℓ]
    · unfold Place.up
      split
      · rw [if_neg hn]
      · rfl
  · show x.cnt + n + 1 = symloopMax
    rw [h3]; exact S.cnt
  · show 2 * v.length + false.toNat < _
    rw [hlen, Bool.toNat_false]; omega

theorem outcome_end (hc : c = []) (hb : s.checkDir = true) (hv0 : v = []) (ha : advance t cwd n o [.empty] = some r) :
    Outcome t cwd W r (skipReadlink x (piece x.output c) c.length false) (2 * (c ++ v).length + s.checkDir.toNat) n := by
  subst hc hv0
  have he := advance_here_nil (Or.inl rfl) ha
  rw [if_neg (by rw [hf]; decide)] at he
  refine Outcome.skip (skipReadlink_comp hs []) (v := []) ⟨hs.size, hs.unread, hs.noNul⟩ (by decide) (h1.trans S.output)
    (h2.trans S.nup) ?_ S.ok hcl hbs (fun hb => by simp at hb) (fun _ hne => absurd rfl hne) ?_ ?_
  · show x.cnt + n + 1 = symloopMax
    rw [h3]; exact S.cnt
  · rw [Todo, if_pos ⟨rfl, by simp⟩]
    exact he
  · rw [hb]; simp

theorem outcome_link {txt : Str} {e : Option Errno} {k : Nat} (hn : n = k + 1) (ht : txt ≠ [])
    (hnul : nul ∉ seen env txt) (hlen : (unparse (parse (seen env txt) ++ (parse v).tail)).length < pathMax)
    (ha : advance t cwd k (o.start (seen env txt)) (parse (seen env txt) ++ (parse v).tail) = some r)
    (hb : x.checkDir = s.checkDir) :
    Outcome t cwd W r (followLink env { x with errno := e } txt) size n := by
  rw [← parse_append_rest _ hv, unparse_parse, List.length_append] at hlen
  have hseen : seen env txt ≠ [] := List.append_ne_nil_of_right_ne_nil _ ht
  have hcnt := S.cnt
  obtain ⟨stack, p, hfl, hh⟩ := followLink_eq (s := { x with errno := e }) ⟨hs.size, hs.unread, hs.noNul⟩ ht hnul (by omega)
  have hrl : (restAfter (seen env txt) v).length ≤ v.length := by
    rcases restAfter_cases (seen env txt) v with ⟨-, hr⟩ | ⟨-, hr⟩
    · rw [hr]; exact (List.dropWhile_sublist _).length_le
    · rw [hr]
  refine .restart _ o _ k hn hfl ⟨hh, ?_, h1.trans S.output, h2.trans S.nup, ?_, S.ok, ?_, fun _ => hbs,
    fun _ => hcl, fun _ _ _ => hf⟩ ?_
  · rw [List.length_append]; omega
  · show x.cnt + 1 + k + 1 = symloopMax
    omega
  · show x.checkDir = true → _
    rw [hb]; exact S.named
  · rw [Todo, if_neg fun h0 => hseen (List.append_eq_nil_iff.mp h0.1).1, start_restAfter o hseen]
    exact advance_restAfter hv hseen ha

end

theorem compTurn_eq {x : Scan} (hok : o.Ok) (h1 : x.output = o.text) (h2 : x.nup = o.nup) :
    compTurn h env errnoSave atflags x c =
      if c = dotdot ∧ o.names = [] ∧ o.base = .cwd then
        .next { x with nup := x.nup + 1, output := addName x.output c }
      else if c = dotdot ∧ x.checkDir = false then skipReadlink x (piece x.output c) c.length true
      else look h env errnoSave atflags x c := by
  simp only [compTurn, h1, h2, Place.text_le_iff hok]
  by_cases hd : c = dotdot ∧ o.names = [] ∧ o.base = .cwd
  · rw [if_pos hd, if_pos hd]
  · rw [if_neg hd, if_neg hd, look, h1]
    by_cases hb : c = dotdot ∧ x.checkDir = false
    · rw [if_pos (Or.inl hb), if_pos hb, decide_eq_true hb.1]
    · rw [if_neg hb]
      by_cases hf : followSymlink atflags = false
      · rw [if_pos (Or.inr hf), if_pos hf]
      · rw [if_neg (not_or.mpr ⟨hb, hf⟩), if_neg hf]

section
variable {x : Scan} (S : Sim t cwd W s o (c ++ v) n) (hsee : Sees h env errnoSave atflags t cwd W) (hA : Asked t cwd W x o c)
  (hs : x.Holds v) (hv : Rest v) (h2 : x.nup = s.nup) (h3 : x.cnt = s.cnt) (hb : x.checkDir = s.checkDir)
include S hsee hA hs hv h2 h3

theorem outcome_look_up (hc : c = dotdot) (hn : o.names ≠ [] ∨ o.base ≠ .cwd)
    (ha : advance t cwd n o (.up :: (parse v).tail) = some r) :
    Outcome t cwd W r (look h env errnoSave atflags x c) (2 * (c ++ v).length + s.checkDir.toNat) n := by
  have h1 : x.output = s.output := hA.output.trans S.output.symm
  have hu := advance_up ha
  cases hf : t.isFile (o.loc cwd) with
  | true =>
    rw [if_pos hf] at hu
    refine .stop (.fail .ENOTDIR) ?_ (Or.inr ⟨_, hsee.file hA hf, rfl⟩)
    rw [hu]; rfl
  | false =>
    obtain ⟨e, hl⟩ := hsee.plain hA hf fun hval => absurd hc hval.2.2.2.2
    rw [hl, decide_eq_true hc]
    exact outcome_pop (x := { x with errno := e }) S ⟨hs.size, hs.unread, hs.noNul⟩ hv h1 h2 h3 hA.clear hA.based hf hc hn _ _ ha

theorem outcome_look_end (hc : c = []) (hv0 : v = []) (hck : s.checkDir = true)
    (ha : advance t cwd n o [.empty] = some r) :
    Outcome t cwd W r (look h env errnoSave atflags x c) (2 * (c ++ v).length + s.checkDir.toNat) n := by
  have h1 : x.output = s.output := hA.output.trans S.output.symm
  have hu := advance_here_nil (Or.inl rfl) ha
  cases hf : t.isFile (o.loc cwd) with
  | true =>
    rw [if_pos hf] at hu
    refine .stop (.fail .ENOTDIR) ?_ (Or.inr ⟨_, hsee.file hA hf, rfl⟩)
    rw [hu]; rfl
  | false =>
    obtain ⟨e, hl⟩ := hsee.plain hA hf fun hval => absurd hc hval.1
    rw [hl, decide_eq_false (by rw [hc]; decide)]
    exact outcome_end (x := { x with errno := e }) S ⟨hs.size, hs.unread, hs.noNul⟩ hv h1 h2 h3 hA.clear hA.based hf hc hck hv0 ha

include hb in
theorem outcome_look_name (hc : ValidName c) (ha : advance t cwd n o (.name c :: (parse v).tail) = some r) :
    Outcome t cwd W r (look h env errnoSave atflags x c) (2 * (c ++ v).length + s.checkDir.toNat) n := by
  have h1 : x.output = s.output := hA.output.trans S.output.symm
  have hu := advance_name ha
  cases hf : t.isFile (o.loc cwd) with
  | true =>
    rw [if_pos hf] at hu
    refine .stop (.fail .ENOTDIR) ?_ (Or.inr ⟨_, hsee.file hA hf, rfl⟩)
    rw [hu]; rfl
  | false =>
    rw [if_neg (by rw [hf]; decide)] at hu
    cases hl : t.isLink (c :: o.loc cwd) with
    | false =>
      obtain ⟨e, hlk⟩ := hsee.plain hA hf fun _ => hl
      rw [hlk, decide_eq_false hc.2.2.2.2]
      exact outcome_push (x := { x with errno := e }) S ⟨hs.size, hs.unread, hs.noNul⟩ hv h1 h2 h3 hA.clear hA.based hf hc hl ha
    | true =>
      obtain ⟨absolute, target, hnode⟩ : ∃ absolute target, t.node (c :: o.loc cwd) = some (.link absolute target) := by
        unfold DirTree.isLink at hl
        split at hl
        · exact ⟨_, _, ‹_›⟩
        · cases hl
      simp only [hnode] at hu
      obtain ⟨txt, ht, hnul, -, rfl, htxt⟩ := hsee.link hA hc hnode
      rw [unparse_parse] at hu
      obtain ⟨hlen, hon⟩ := hu
      have hroom : txt.length < x.p := by
        have hpl := hs.p_add
        have hsl : txt.length ≤ (seen env txt).length := by rw [seen, List.length_append]; omega
        rw [← parse_append_rest _ hv, unparse_parse, List.length_append] at hlen
        omega
      obtain ⟨e, hlk⟩ := htxt hroom
      have hcnt := S.cnt
      rw [hlk]
      cases n with
      | zero =>
        rw [if_pos (by omega)]
        refine .stop (.fail .ELOOP) ?_ (Or.inr ⟨_, rfl, rfl⟩)
        rw [← Option.some.inj hon]; rfl
      | succ k =>
        rw [if_neg (by omega)]
        exact outcome_link S hs hv h1 h2 h3 hA.clear hA.based hf rfl ht hnul hlen hon hb

end

theorem outcome_ups {x : Scan} (S : Sim t cwd W s o (c ++ v) n) (hs : x.Holds v) (hv : Rest v) (h1 : x.output = o.text)
    (h2 : x.nup = s.nup) (h3 : x.cnt = s.cnt) (hb : x.checkDir = s.checkDir) (hc : c = dotdot) (hn : o.names = [])
    (hbase : o.base = .cwd) (ha : advance t cwd n o (.up :: (parse v).tail) = some r) :
    Outcome t cwd W r (.next { x with nup := x.nup + 1, output := addName x.output c })
      (2 * (c ++ v).length + s.checkDir.toNat) n := by
  subst hc
  have hshort := S.short
  have hlen : (dotdot ++ v).length = v.length + 2 := by simp [dotdot]
  have hck : s.checkDir = false := by
    cases hck : s.checkDir with
    | false => rfl
    | true => exact absurd hn (S.named hck)
  have hf := S.dir rfl hck (by simp [dotdot])
  have hu := advance_up ha
  rw [if_neg (by rw [hf]; decide)] at hu
  have hcl' := clear_up (S.clear rfl) hf
  have hb' : x.checkDir = false := hb.trans hck
  refine Outcome.skip (o := o.up) rfl (v := v) ⟨hs.size, hs.unread, hs.noNul⟩ (by omega) ?_ ?_ ?_ S.ok.up hcl'.1
    (fun _ => S.based rfl hbase) (fun h => ?_) (fun _ _ => hcl'.2) ?_ ?_
  · show addName x.output dotdot = o.up.text
    rw [h1]; exact (text_up_ups hn hbase).1
  · show x.nup + 1 = o.up.nup
    rw [h2, S.nup]; exact (text_up_ups hn hbase).2.symm
  · show x.cnt + n + 1 = symloopMax
    rw [h3]; exact S.cnt
  · rw [hb'] at h; cases h
  · exact todo_strip hv (fun _ _ => hcl'.2) (fun _ => hb') hu
  · show 2 * v.length + x.checkDir.toNat < _
    rw [hlen, hb', Bool.toNat_false]; omega

theorem outcome_comp (S : Sim t cwd W s o (c ++ v) n) (hsee : Sees h env errnoSave atflags t cwd W) (hc : '/' ∉ c)
    (hv : Rest v) (h0 : c ≠ [] ∨ v = []) (hcd : c ≠ dot) (hb : c = [] → s.checkDir = true)
    (ha : advance t cwd n o (compOf c :: (parse v).tail) = some r) :
    Outcome t cwd W r (turn h env errnoSave atflags s) (2 * (c ++ v).length + s.checkDir.toNat) n := by
  have hp := S.holds.p_add
  have hshort := S.short
  have hlen := advance_short ha
  rw [compText_compOf] at hlen
  obtain ⟨x, hs, hsp, h1, h3, h2, hck, hT⟩ := turn_comp h env errnoSave atflags
    S.holds hc hv h0 hcd hb (by omega) (by rw [S.output]; exact hlen)
  have hna : isAbs (c ++ v) = false := isAbs_comp hc h0
  have hA : Asked t cwd W x o c :=
    ⟨S.ok, S.based hna, S.clear hna, h1.trans S.output, hc, fun hm => S.holds.noNul (List.mem_append_left v hm), hcd, fun h => S.named (hb h), hlen, by omega,
      hs.p_add ▸ Nat.le_add_right _ _⟩
  rw [hT, compTurn_eq S.ok hA.output (h2.trans S.nup)]
  by_cases hd : c = dotdot
  · have ha : advance t cwd n o (.up :: (parse v).tail) = some r := by
      rw [hd] at ha; exact ha
    by_cases hups : o.names = [] ∧ o.base = .cwd
    · rw [if_pos ⟨hd, hups⟩]
      exact outcome_ups S hs hv hA.output h2 h3 hck hd hups.1 hups.2 ha
    · have hn : o.names ≠ [] ∨ o.base ≠ .cwd := not_and_or.mp hups
      rw [if_neg fun h => hups h.2]
      by_cases hck' : x.checkDir = false
      · rw [if_pos ⟨hd, hck'⟩]
        have hf := S.dir hna (hck.symm.trans hck') (by rw [hd]; simp [dotdot])
        exact outcome_pop S hs hv h1 h2 h3 hA.clear hA.based hf hd hn _ _ ha
      · rw [if_neg fun h => hck' h.2]
        exact outcome_look_up S hsee hA hs hv h2 h3 hd hn ha
  · rw [if_neg fun h => hd h.1, if_neg fun h => hd h.1]
    by_cases hnil : c = []
    · have hv0 := h0.resolve_left (not_not_intro hnil)
      rw [hnil, hv0] at ha
      exact outcome_look_end S hsee hA hs hv h2 h3 hnil hv0 (hb hnil) ha
    · have hval : ValidName c := ⟨hnil, hc, fun hm => S.holds.noNul (List.mem_append_left v hm), hcd, hd⟩
      rw [compOf_name hval] at ha
      exact outcome_look_name S hsee hA hs hv h2 h3 hck hval ha

/-- One turn, whatever the unread text is. -/
theorem outcome (hsee : Sees h env errnoSave atflags t cwd W) (S : Sim t cwd W s o u n) (D : Todo t cwd r s.checkDir o u n) :
    Outcome t cwd W r (turn h env errnoSave atflags s) (2 * u.length + s.checkDir.toNat) n := by
  by_cases habs : isAbs u = true
  · obtain ⟨v, rfl⟩ : ∃ v, u = '/' :: v := by
      cases u with
      | nil => cases habs
      | cons x v =>
        have hx : x = '/' := by simpa [isAbs] using habs
        exact ⟨v, by rw [hx]⟩
    exact outcome_abs S D
  · by_cases hend : u = [] ∧ s.checkDir = false
    · obtain ⟨rfl, hb⟩ := hend
      exact outcome_leave S hb D
    · rw [Todo, if_neg hend, Place.start_of_not_abs (by simpa using habs)] at D
      obtain ⟨c, hcu⟩ : ∃ c, c = u.takeWhile (fun x => decide (x ≠ '/')) := ⟨_, rfl⟩
      obtain ⟨v, hvu⟩ : ∃ v, v = u.dropWhile (fun x => decide (x ≠ '/')) := ⟨_, rfl⟩
      have hu : u = c ++ v := by rw [hcu, hvu, List.takeWhile_append_dropWhile]
      have hc : '/' ∉ c := fun hm => by
        rw [hcu] at hm
        have := List.mem_takeWhile_imp hm
        simp at this
      have hv : Rest v := hvu ▸ Rest.dropWhile u
      have h0 : c ≠ [] ∨ v = [] := by
        by_contra hne
        rw [not_or, Decidable.not_not] at hne
        obtain ⟨hc0, hv0⟩ := hne
        rcases hv with hv | ⟨w, hw⟩
        · exact hv0 hv
        · rw [hu, hc0, hw] at habs
          exact habs rfl
      have hb : c = [] → s.checkDir = true := by
        intro hc0
        have hu0 : u = [] := by rw [hu, hc0, h0.resolve_left (not_not_intro hc0)]; rfl
        by_contra hb
        exact hend ⟨hu0, by simpa using hb⟩
      rw [hu] at S D ⊢
      rw [parse_comp hc hv] at D
      by_cases hdot : c = dot
      · subst hdot
        exact outcome_dot S hv D
      · exact outcome_comp S hsee hc hv h0 hdot hb D

/-! ## The loop -/

theorem loop_advance (hsee : Sees h env errnoSave atflags t cwd W) : ∀ (n size : Nat) (s : Scan) (o : Place) (u : Str),
    2 * u.length + s.checkDir.toNat = size → Sim t cwd W s o u n → Todo t cwd r s.checkDir o u n →
    ∃ R, Ends h env errnoSave atflags s R ∧ Agrees cwd W R r := by
  intro n
  induction n with
  | zero =>
    intro size
    induction size using Nat.strongRecOn with
    | _ size ih =>
      intro s o u hsize S D
      cases outcome hsee S D with
      | stop R hR hT =>
        rcases hT with ⟨s', hT, rfl⟩ | ⟨e, hT, rfl⟩
        · exact ⟨_, Ends.leave hT, hR⟩
        · exact ⟨_, Ends.fail hT, hR⟩
      | next s' o' u' hT hs ht hlt =>
        obtain ⟨R, hE, hR⟩ := ih _ (hsize ▸ hlt) _ o' u' rfl hs ht
        exact ⟨R, Ends.next hT hE, hR⟩
      | restart s' o' u' k hk hT hs ht => cases hk
  | succ n hn =>
    intro size
    induction size using Nat.strongRecOn with
    | _ size ih =>
      intro s o u hsize S D
      cases outcome hsee S D with
      | stop R hR hT =>
        rcases hT with ⟨s', hT, rfl⟩ | ⟨e, hT, rfl⟩
        · exact ⟨_, Ends.leave hT, hR⟩
        · exact ⟨_, Ends.fail hT, hR⟩
      | next s' o' u' hT hs ht hlt =>
        obtain ⟨R, hE, hR⟩ := ih _ (hsize ▸ hlt) _ o' u' rfl hs ht
        exact ⟨R, Ends.next hT hE, hR⟩
      | restart s' o' u' k hk hT hs ht =>
        cases hk
        obtain ⟨R, hE, hR⟩ := hn _ s' o' u' rfl hs ht
        exact ⟨R, Ends.restart hT hE, hR⟩

end

/-! ## The end of a relative path -/

theorem cwdUp_pathOf {ℓ : Loc} (hv : ValidLoc ℓ) : cwdUp (pathOf ℓ) = pathOf ℓ.tail := by
  cases ℓ with
  | nil => decide
  | cons c ℓ =>
    have hc := hv c (by simp)
    have hp : ∀ x ∈ c, decide (x ≠ '/') = true := by
      intro x hx
      simp only [ne_eq, decide_eq_true_eq]
      rintro rfl
      exact hc.2.1 hx
    have hd : (pathOf (c :: ℓ)).rdropWhile (fun x => decide (x ≠ '/')) = render ℓ ++ ['/'] := by
      rw [pathOf, if_neg (List.cons_ne_nil _ _), render_cons, List.append_cons, rdropWhile_append hp,
        List.rdropWhile_concat_neg _ _ _ (by decide)]
    unfold cwdUp
    simp only [hd, List.append_eq_nil_iff, List.cons_ne_nil, and_false, if_false, List.tail_cons]
    by_cases hℓ : ℓ = []
    · subst hℓ; rfl
    · have hpos := render_length_pos hℓ
      rw [if_pos (by rw [List.length_append, List.length_singleton]; omega), List.dropLast_concat, pathOf, if_neg hℓ]

theorem cwdUp_iterate (n : Nat) {ℓ : Loc} (hv : ValidLoc ℓ) : cwdUp^[n] (pathOf ℓ) = pathOf (ℓ.drop n) := by
  induction n generalizing ℓ with
  | zero => rfl
  | succ n ih =>
    rw [Function.iterate_succ, Function.comp_apply, cwdUp_pathOf hv, ih fun c hc => hv c (List.mem_of_mem_tail hc),
      ← List.drop_one, List.drop_drop, Nat.add_comm]

theorem foldr_names {ℓ : Loc} (hv : ValidLoc ℓ) (h : ℓ ≠ []) : '/' :: ℓ.foldr (fun c out => addName out c) [] = render ℓ := by
  induction ℓ with
  | nil => exact absurd rfl h
  | cons c ℓ ih =>
    rw [List.foldr_cons, render_cons]
    by_cases hℓ : ℓ = []
    · subst hℓ; rfl
    · have ih := ih (fun x hx => hv x (by simp [hx])) hℓ
      cases ℓ with
      | nil => exact absurd rfl hℓ
      | cons d ℓ =>
        have hd := hv d (by simp)
        have hs : needsSlash ((d :: ℓ).foldr (fun c out => addName out c) []) = true :=
          needsSlash_addName hd.1 hd.2.1
        rw [addName_of_needs hs, ← ih]
        rfl

def upsText (n : Nat) : Str := (List.replicate n ['.', '.', '/']).flatten

theorem length_upsText (n : Nat) : (upsText n).length = 3 * n := by
  rw [upsText, List.length_flatten, List.map_replicate, List.sum_replicate_nat]
  exact Nat.mul_comm n 3

theorem upsText_succ (n : Nat) : upsText (n + 1) = upsText n ++ ['.', '.', '/'] := by
  rw [upsText, List.replicate_succ', List.flatten_append]
  rfl

theorem ups_eq (n : Nat) : (List.replicate (n + 1) dotdot).foldr (fun c out => addName out c) [] = upsText n ++ dotdot := by
  induction n with
  | zero => rfl
  | succ n ih =>
    rw [List.replicate_succ, List.foldr_cons, ih, addName_of_needs (needsSlash_append (by decide) (by decide)),
      upsText_succ]
    simp [dotdot]

theorem text_rel {o : Place} (hok : o.Ok) (hb : o.base = .cwd) (hn : o.names ≠ []) :
    o.text = upsText o.nup ++ o.names.foldr (fun c out => addName out c) [] := by
  have hgo : ∀ {ℓ : Loc}, ValidLoc ℓ → ℓ ≠ [] → (ℓ ++ List.replicate o.nup dotdot).foldr (fun c out => addName out c) [] =
      upsText o.nup ++ ℓ.foldr (fun c out => addName out c) [] := by
    intro ℓ hv hℓ
    induction ℓ with
    | nil => exact absurd rfl hℓ
    | cons c ℓ ih =>
      rw [List.cons_append, List.foldr_cons, List.foldr_cons]
      by_cases hℓ' : ℓ = []
      · subst hℓ'
        rw [List.nil_append]
        cases hnup : o.nup with
        | zero => rfl
        | succ n =>
          rw [ups_eq, addName_of_needs (needsSlash_append (by decide) (by decide)), upsText_succ]
          simp [dotdot, addName, needsSlash]
      · have ih := ih (fun x hx => hv x (by simp [hx])) hℓ'
        rw [ih]
        have hnm := foldr_names (fun x hx => hv x (by simp [hx])) hℓ'
        cases ℓ with
        | nil => exact absurd rfl hℓ'
        | cons d ℓ =>
          have hd := hv d (by simp)
          have hs : needsSlash ((d :: ℓ).foldr (fun c out => addName out c) []) = true :=
            needsSlash_addName hd.1 hd.2.1
          have hne : (d :: ℓ).foldr (fun c out => addName out c) [] ≠ [] := fun e => by rw [e] at hs; cases hs
          have hs' : needsSlash (upsText o.nup ++ (d :: ℓ).foldr (fun c out => addName out c) []) = true := by
            obtain ⟨x, hx, hxn⟩ := needsSlash_iff.mp hs
            exact needsSlash_iff.mpr ⟨x, by rw [List.getLast?_append_of_ne_nil _ hne, hx], hxn⟩
          rw [addName_of_needs hs, addName_of_needs hs', List.append_assoc]
  rw [Place.text, hb]
  exact hgo hok.valid hn

theorem skipUps_names {q : Nat} : ∀ {n p : Nat}, p + 3 * n ≤ q → skipUps q n p = p + 3 * n
  | 0, _, _ => rfl
  | n + 1, p, h => by
    rw [skipUps, if_pos (by omega), skipUps_names (by omega)]
    omega

theorem skipUps_only {q : Nat} : ∀ {n p : Nat}, p + 3 * (n + 1) = q + 1 → skipUps q (n + 1) p = q
  | 0, p, h => by
    rw [skipUps, if_neg (by omega), skipUps]
    omega
  | n + 1, p, h => by
    rw [skipUps, if_pos (by omega)]
    exact skipUps_only (by omega)

theorem getLast?_pathOf {ℓ : Loc} (hv : ValidLoc ℓ) : (pathOf ℓ).getLast? ≠ some '/' ↔ ℓ ≠ [] := by
  by_cases h : ℓ = []
  · subst h; decide
  · obtain ⟨x, hx, hne⟩ := needsSlash_iff.mp (Place.needsSlash_render hv h)
    rw [pathOf, if_neg h, hx]
    refine ⟨fun _ => h, fun _ e => hne (Option.some.inj e)⟩

theorem validLoc_drop {ℓ : Loc} (hv : ValidLoc ℓ) (n : Nat) : ValidLoc (ℓ.drop n) := fun c hc => hv c (List.mem_of_mem_drop hc)

section
variable {h : Host} {s : Scan} {o : Place} {cwd : Loc}

theorem Place.isAbs_text (hok : o.Ok) : isAbs o.text = decide (o.base ≠ .cwd) := by
  cases hnm : o.names with
  | nil =>
    by_cases hb : o.base = .cwd
    · cases hnu : o.nup with
      | zero => simp [Place.text, hb, hnm, hnu, Base.text, isAbs]
      | succ n =>
        have : o.text = upsText n ++ dotdot := by rw [Place.text, hb, hnm, hnu, List.nil_append]; exact ups_eq n
        rw [this, hb]
        cases n with
        | zero => rfl
        | succ n => rfl
    · have ht : o.text = o.base.text := by rw [Place.text, hnm, hok.nup hb]; rfl
      rw [ht]
      cases hb' : o.base with
      | cwd => exact absurd hb' hb
      | one | two => rfl
  | cons c ℓ =>
    have ht : o.text = addName ({ o with names := ℓ } : Place).text c := by simp only [Place.text, hnm]; rfl
    rw [ht]
    exact Place.isAbs_addName (o := { o with names := ℓ }) ⟨fun x hx => hok.valid x (by simp [hnm, hx]), hok.nup⟩
      (hok.valid c (by simp [hnm])).2.1

theorem absolute_place (hcwd : o.base = .cwd → h.getcwd = .ok (pathOf cwd) ∧ (pathOf cwd).length < pathMax ∧ ValidLoc cwd)
    (ho : s.output = o.text) (hn : s.nup = o.nup) (hok : o.Ok) :
    absolute h s = if o.endFits cwd then .done (o.final cwd) else .fail .ENAMETOOLONG := by
  have habs := Place.isAbs_text hok
  by_cases hb : o.base = .cwd
  · obtain ⟨hcwd, hshort, hv⟩ := hcwd hb
    have hloc : o.loc cwd = o.names ++ cwd.drop o.nup := by rw [Place.loc, if_pos hb]
    have hfin : o.final cwd = pathOf (o.names ++ cwd.drop o.nup) := by
      rw [Place.final, hb, if_neg (by decide), hloc]
    have hend : o.endFits cwd = true ↔ ¬ pathMax ≤ (pathOf (o.names ++ cwd.drop o.nup)).length + 1 := by
      simp [Place.endFits, hb, hloc]
    have hvd := validLoc_drop hv o.nup
    have hrel : isAbs s.output = false := by rw [ho, habs, hb]; rfl
    rw [hfin, absolute, hrel, hcwd]
    simp only [Bool.false_eq_true, if_false, hend, ite_not]
    rw [if_neg (by omega), hn, cwdUp_iterate _ hv, ho]
    by_cases hnm : o.names = []
    · have hrest : o.text.drop (skipUps o.text.length o.nup 0) = [] := by
        cases hnu : o.nup with
        | zero =>
          have : o.text = [] := by simp [Place.text, hb, hnm, hnu, Base.text]
          rw [this]; rfl
        | succ n =>
          have hu := Place.length_ups (n + 1)
          have ht : o.text = (List.replicate (n + 1) dotdot).foldr (fun c out => addName out c) [] := by
            rw [Place.text, hb, hnm, hnu]; rfl
          rw [← ht] at hu
          rw [skipUps_only (by simp only [Nat.succ_ne_zero, if_false] at hu; omega)]
          exact List.drop_eq_nil_of_le (Nat.le_refl _)
      rw [hnm, List.nil_append]
      simp only [hrest, ne_eq, not_true_eq_false, false_and, if_false, List.length_nil, List.append_nil, Nat.add_zero]
    · have hrest : o.text.drop (skipUps o.text.length o.nup 0) = o.names.foldr (fun c out => addName out c) [] := by
        have ht := text_rel hok hb hnm
        rw [skipUps_names (by rw [ht, List.length_append, length_upsText]; omega), ht]
        exact List.drop_left' (by rw [length_upsText]; omega)
      have hren := foldr_names hok.valid hnm
      have hne : o.names.foldr (fun c out => addName out c) [] ≠ [] := fun e => by
        rw [e] at hren
        have hge := render_length_ge hok.valid hnm
        rw [← hren] at hge
        simp at hge
      have hjoin : (if (pathOf (cwd.drop o.nup)).getLast? ≠ some '/' then pathOf (cwd.drop o.nup) ++ ['/']
          else pathOf (cwd.drop o.nup)) ++ o.names.foldr (fun c out => addName out c) [] =
            pathOf (o.names ++ cwd.drop o.nup) := by
        have hrhs : pathOf (o.names ++ cwd.drop o.nup) = render (cwd.drop o.nup) ++ render o.names := by
          rw [pathOf, if_neg (by simp [hnm]), render_append]
        rw [hrhs, ← hren]
        by_cases hd : cwd.drop o.nup = []
        · rw [if_neg ((getLast?_pathOf hvd).not.mpr (not_not_intro hd)), hd]
          rfl
        · rw [if_pos ((getLast?_pathOf hvd).mpr hd), pathOf, if_neg hd, List.append_assoc]
          rfl
      have hlen := congrArg List.length hjoin
      rw [List.length_append] at hlen
      simp only [hrest, ne_eq, hne, not_false_eq_true, true_and]
      simp only [ne_eq] at hjoin hlen
      rw [hlen, hjoin]
  · have hrel : isAbs s.output = true := by rw [ho, habs]; exact decide_eq_true hb
    rw [absolute, if_pos hrel, ho, Place.text_eq_final hok hb cwd, Place.endFits, decide_eq_true hb]
    rfl

end

/-! ## The whole function -/

def Place.origin : Place := { base := .cwd, nup := 0, names := [] }

def resolved (t : DirTree Str) (cwd : Loc) (path : Str) : Option (Except Err Place) :=
  advance t cwd (symloopMax - 1) (Place.origin.start path) (parse path)

def result (cwd : Loc) : Except Err Place → Ret Str
  | .ok o => .done (o.final cwd)
  | .error e => .fail (Err.errno e)

theorem initial_holds {path : Str} (hlen : path.length < pathMax) (hnul : nul ∉ path) (errno : Option Errno) :
    (initial path errno).Holds path where
  size := by
    simp only [initial, List.length_append, List.length_replicate, List.length_singleton]
    omega
  unread := by
    have : (initial path errno).stack = List.replicate (pathMax - path.length) nul ++ (path ++ [nul]) :=
      List.append_assoc _ _ _
    rw [this]
    exact List.drop_left' (by rw [List.length_replicate]; rfl)
  noNul := hnul

/-- Where the walk on places says something, `__realpathat` returns it. -/
theorem realpathat_eq {h : Host} {env : Option Str} {errno : Option Errno} {atflags : Word} {t : DirTree Str} {cwd : Loc}
    {W : Prop} {path : Str} {r : Except Err Place} (hsee : Sees h env errno atflags t cwd W)
    (hcwd : W → h.getcwd = .ok (pathOf cwd) ∧ (pathOf cwd).length < pathMax ∧ ValidLoc cwd)
    (hrel : isAbs path = false → W ∧ t.Clear cwd ∧ t.isFile cwd = false)
    (hne : path ≠ []) (hlen : path.length < pathMax) (hnul : nul ∉ path) (hr : resolved t cwd path = some r) :
    ∃ n, ∀ k, realpathat h env errno (n + k) path atflags = result cwd r := by
  have S : Sim t cwd W (initial path errno) .origin path (symloopMax - 1) :=
    ⟨initial_holds hlen hnul errno, hlen, rfl, rfl, rfl, ⟨nofun, fun h => absurd rfl h⟩, nofun,
      fun h _ => (hrel h).1, fun h => (hrel h).2.1, fun h _ _ => (hrel h).2.2⟩
  have D : Todo t cwd r (initial path errno).checkDir .origin path (symloopMax - 1) := by
    rw [Todo, if_neg fun h => hne h.1]
    exact hr
  obtain ⟨R, ⟨n, hn⟩, hR⟩ := loop_advance hsee (symloopMax - 1) _ _ _ _ rfl S D
  refine ⟨n, fun k => ?_⟩
  have hl : strnlen path (pathMax + 1) = path.length := by unfold strnlen; omega
  have hpos := List.length_pos_of_ne_nil hne
  rw [realpathat]
  simp only [hl]
  rw [if_neg (by omega), if_neg (by omega), hn k]
  cases r with
  | ok o =>
    obtain ⟨s, rfl, ho, hnu, hok, hend, hb⟩ := hR
    exact (absolute_place (fun h => hcwd (hb h)) ho hnu hok).trans (if_pos hend)
  | error e =>
    rw [Agrees] at hR
    rw [hR]
    rfl

end Iamroot
