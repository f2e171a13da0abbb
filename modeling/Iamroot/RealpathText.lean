import Iamroot.RealpathLoop

/-!
# The symlink walk on texts

A walk that meets no error and no text that does not fit can be followed on the
unread text and the output alone, without the array that holds them. `walkText`
does so and gives up on anything else; what it comes to is what `__realpathat`
returns.
-/

namespace Iamroot

/-- The variables of the walk, with the unread text in the place of the array. -/
structure Reading where
  unread : Str
  output : Str
  cnt : Nat
  nup : Nat
  checkDir : Bool

structure Scan.Reads (s : Scan) (x : Reading) : Prop where
  holds : s.Holds x.unread
  short : x.unread.length < pathMax
  output : s.output = x.output
  cnt : s.cnt = x.cnt
  nup : s.nup = x.nup
  checkDir : s.checkDir = x.checkDir

namespace Reading

def skip (x : Reading) (c v : Str) : Reading :=
  if c = dotdot then { x with unread := v, checkDir := false, output := popName x.output }
  else { x with unread := v, output := if c = [] then x.output else addName x.output c, checkDir := decide (v ≠ []) }

section
variable (h : Host) (env : Option Str) (atflags : Word)

def ask (x : Reading) (c v : Str) : Option (Turn Reading) :=
  match h.getxattr (addName x.output c) with
  | .ok a =>
    if a ≠ [] ∧ 2 * a.length + v.length < pathMax ∧ nul ∉ a.dropLast then
      some (.restart { x with unread := a.dropLast ++ v })
    else none
  | .error _ =>
    match h.readlink (addName x.output c) with
    | .ok t =>
      if t ≠ [] ∧ (seen env t).length + v.length < pathMax ∧ nul ∉ seen env t ∧ x.cnt + 1 ≠ symloopMax then
        some (.restart { x with unread := seen env t ++ restAfter (seen env t) v, cnt := x.cnt + 1 })
      else none
    | .error e => if e = .ENOENT ∨ e = .EINVAL then some (.next (x.skip c v)) else none

def turn (x : Reading) : Option (Turn Reading) :=
  if x.unread.head? = some '/' then
    some (.next { x with
      unread := x.unread.tail
      checkDir := false
      nup := 0
      output := if double x.unread then ['/', '/'] else ['/'] })
  else
    let c := x.unread.takeWhile (· ≠ '/')
    let v := x.unread.dropWhile (· ≠ '/')
    if c = [] ∧ x.checkDir = false then some (.leave x)
    else if c = dot then some (.next { x with unread := v })
    else if pathMax ≤ (addName x.output c).length then none
    else if c = dotdot ∧ x.output.length ≤ 3 * x.nup then
      some (.next { x with unread := v, nup := x.nup + 1, output := addName x.output c })
    else if c = dotdot ∧ x.checkDir = false ∨ followSymlink atflags = false then some (.next (x.skip c v))
    else x.ask h env c v

def walk : Nat → Reading → Option Reading
  | 0, _ => none
  | fuel + 1, x =>
    match x.turn h env atflags with
    | some (.next y) => walk fuel { y with unread := y.unread.dropWhile (· = '/') }
    | some (.restart y) => walk fuel y
    | some (.leave y) => some y
    | _ => none

end

def Follows (T : Turn Scan) : Turn Reading → Prop
  | .next y => ∃ s, T = .next s ∧ s.Reads y
  | .restart y => ∃ s, T = .restart s ∧ s.Reads y
  | .leave y => ∃ s, T = .leave s ∧ s.Reads y
  | .fail e => T = .fail e
  | .fault => T = .fault

end Reading

section
variable {h : Host} {env : Option Str} {errnoSave : Option Errno} {atflags : Word} {s : Scan} {x : Reading} {c v : Str}
  {T : Turn Reading}

theorem restAfter_length (t v : Str) : (restAfter t v).length ≤ v.length := by
  rcases restAfter_cases t v with ⟨-, hr⟩ | ⟨-, hr⟩
  · rw [hr]
    exact (List.dropWhile_sublist _).length_le
  · rw [hr]

theorem Scan.Reads.skipped {y : Reading} (hr : s.Reads y) :
    (skipped s).Reads { y with unread := y.unread.dropWhile (· = '/') } :=
  { hr with
    holds := hr.holds.skip
    short := Nat.lt_of_le_of_lt (List.dropWhile_sublist _).length_le hr.short }

theorem redirect_holds {a : Str} (hs : s.Holds v) (hpos : 0 < a.length) (hle : a.length ≤ s.p) (hnul : nul ∉ a.dropLast) :
    Scan.Holds { s with
      stack := (a ++ s.stack.drop a.length).take (s.p - a.length + 1) ++ (a ++ s.stack.drop a.length).take (a.length - 1) ++
        (a ++ s.stack.drop a.length).drop s.p
      p := s.p - (a.length - 1) } (a.dropLast ++ v) := by
  have hp := hs.p_add
  have hsize := hs.size
  have hrest : (a ++ s.stack.drop a.length).drop s.p = v ++ [nul] := by
    rw [List.drop_append, List.drop_eq_nil_of_le hle, List.nil_append, List.drop_drop, ← hs.unread]
    congr 1
    omega
  have htake : (a ++ s.stack.drop a.length).take (a.length - 1) = a.dropLast := by
    rw [List.take_append_of_le_length (by omega), List.dropLast_eq_take]
  have hfirst : ((a ++ s.stack.drop a.length).take (s.p - a.length + 1)).length = s.p - (a.length - 1) := by
    rw [List.length_take, List.length_append, List.length_drop]
    omega
  refine ⟨?_, ?_, ?_⟩
  · rw [hrest, htake, List.length_append, List.length_append, hfirst, List.length_append, List.length_dropLast,
      List.length_singleton]
    omega
  · rw [hrest, htake, List.append_assoc, List.drop_left' hfirst, List.append_assoc]
  · rw [List.mem_append, not_or]
    exact ⟨hnul, hs.noNul⟩

section
variable (hs : s.Holds v) (hv : v.length < pathMax) (h1 : s.output = x.output) (h2 : s.cnt = x.cnt) (h3 : s.nup = x.nup)
include hs hv h1 h2 h3

theorem skipReadlink_reads : ∃ s', skipReadlink s (piece s.output c) c.length (c = dotdot) = .next s' ∧
    s'.Reads (x.skip c v) := by
  by_cases hc : c = dotdot
  · rw [decide_eq_true hc, skipReadlink_up]
    refine ⟨_, rfl, ?_⟩
    rw [Reading.skip, if_pos hc]
    exact ⟨⟨hs.size, hs.unread, hs.noNul⟩, hv, congrArg popName h1, h2, h3, rfl⟩
  · rw [decide_eq_false hc, skipReadlink_comp hs]
    refine ⟨_, rfl, ?_⟩
    rw [Reading.skip, if_neg hc]
    exact ⟨⟨hs.size, hs.unread, hs.noNul⟩, hv, by rw [h1], h2, h3, rfl⟩

theorem ask_follows (h4 : s.checkDir = x.checkDir) (ht : x.ask h env c v = some T) :
    Reading.Follows (getxattrTurn h env errnoSave s (piece s.output c) c.length (c = dotdot)) T := by
  have hp := hs.p_add
  unfold Reading.ask at ht
  cases hx : h.getxattr (addName x.output c) with
  | ok a =>
    rw [hx] at ht
    dsimp only at ht
    split at ht
    · rename_i hok
      obtain ⟨hne, hlen, hnul⟩ := hok
      cases ht
      have hpos : 0 < a.length := List.length_pos_of_ne_nil hne
      have hg : getxattr h (s.output ++ piece s.output c) s.p = .ok a := by
        rw [← addName_eq, h1, getxattr, hx]
        exact if_neg (by omega)
      rw [getxattrTurn, hg]
      dsimp only
      rw [if_neg (by omega), if_neg (by omega), if_neg (by omega)]
      refine ⟨_, rfl, redirect_holds hs (by omega) (by omega) hnul, ?_, h1, h2, h3, h4⟩
      rw [List.length_append, List.length_dropLast]
      omega
    · cases ht
  | error e =>
    rw [hx] at ht
    have hg : getxattrTurn h env errnoSave s (piece s.output c) c.length (c = dotdot) =
        readlinkTurn h env errnoSave { s with errno := errnoSave } (piece s.output c) c.length (c = dotdot) := by
      rw [getxattrTurn, ← addName_eq, h1]
      simp [getxattr, hx, bind, Except.bind]
    have hl : readlink h (addName s.output c) s.p = (h.readlink (addName x.output c)).map (·.take s.p) := by
      rw [readlink, if_neg (by omega), h1]
    rw [hg, readlinkTurn, ← addName_eq]
    cases hr : h.readlink (addName x.output c) with
    | ok t =>
      rw [hr] at ht hl
      dsimp only at ht
      split at ht
      · rename_i hok
        obtain ⟨hne, hlen, hnul, hcnt⟩ := hok
        cases ht
        have hle : t.length ≤ (seen env t).length := by rw [seen, List.length_append]; omega
        have hpos : 0 < t.length := List.length_pos_of_ne_nil hne
        obtain ⟨stack, p, hfl, hh⟩ := followLink_eq (s := { s with errno := errnoSave }) ⟨hs.size, hs.unread, hs.noNul⟩ hne
          hnul (by omega)
        have htake : t.take s.p = t := List.take_of_length_le (by omega)
        simp only [hl, Except.map, htake]
        rw [if_neg (by omega), if_neg (by omega), if_neg (by rw [h2]; exact hcnt), hfl]
        refine ⟨_, rfl, hh, ?_, h1, by rw [h2], h3, h4⟩
        rw [List.length_append]
        have := restAfter_length (seen env t) v
        omega
      · cases ht
    | error e' =>
      rw [hr] at ht hl
      dsimp only at ht
      split at ht
      · rename_i hok
        cases ht
        simp only [hl, Except.map]
        by_cases he : e' = .ENOENT
        · rw [if_pos he]
          exact skipReadlink_reads (s := { s with errno := some .ENOENT }) ⟨hs.size, hs.unread, hs.noNul⟩ hv h1 h2 h3
        · rw [if_neg he, if_neg (not_not_intro (hok.resolve_left he))]
          exact skipReadlink_reads (s := { s with errno := errnoSave }) ⟨hs.size, hs.unread, hs.noNul⟩ hv h1 h2 h3
      · cases ht

end

theorem turn_follows (hr : s.Reads x) (ht : x.turn h env atflags = some T) :
    Reading.Follows (turn h env errnoSave atflags s) T := by
  obtain ⟨hs, hlt, h1, h2, h3, h4⟩ := hr
  obtain ⟨u, out, cnt, nup, ck⟩ := x
  dsimp only at hs hlt h1 h2 h3 h4
  unfold Reading.turn at ht
  dsimp only at ht
  split at ht
  · rename_i habs
    obtain ⟨v, rfl⟩ : ∃ v, u = '/' :: v := ⟨u.tail, (List.cons_head?_tail habs).symm⟩
    cases ht
    rw [turn_abs hs]
    have hd := Scan.Holds.drop (c := ['/']) hs
    exact ⟨_, rfl, ⟨hd.size, hd.unread, hd.noNul⟩, Nat.lt_of_succ_lt hlt, rfl, h2, rfl, rfl⟩
  · rename_i habs
    obtain ⟨c, hc⟩ : ∃ c, c = u.takeWhile (· ≠ '/') := ⟨_, rfl⟩
    obtain ⟨v, hv⟩ : ∃ v, v = u.dropWhile (· ≠ '/') := ⟨_, rfl⟩
    have hu : u = c ++ v := by rw [hc, hv, List.takeWhile_append_dropWhile]
    have hrest : Rest v := hv ▸ Rest.dropWhile u
    have hslash : '/' ∉ c := fun hm => by
      have := List.mem_takeWhile_imp (hc ▸ hm)
      simp at this
    have h0 : c ≠ [] ∨ v = [] := by
      rcases hrest with hv0 | ⟨w, hw⟩
      · exact .inr hv0
      · refine .inl fun hc0 => habs ?_
        rw [hu, hc0, hw]
        rfl
    have hvlt : v.length < pathMax := by
      rw [hu, List.length_append] at hlt
      omega
    rw [← hc, ← hv] at ht
    rw [hu] at hs
    split at ht
    · rename_i hleave
      cases ht
      have hv0 : v = [] := h0.resolve_left (not_not_intro hleave.1)
      rw [hleave.1, hv0] at hs
      rw [turn_leave hs (h4.trans hleave.2)]
      exact ⟨_, rfl, by rw [hu, hleave.1, hv0]; exact hs, hlt, h1, h2, h3, h4⟩
    · rename_i hleave
      split at ht
      · rename_i hd
        cases ht
        subst hd
        rw [turn_dot hs hrest]
        exact ⟨_, rfl, hs.drop, hvlt, h1, h2, h3, h4⟩
      · rename_i hd
        split at ht
        · cases ht
        · rename_i hfit
          have hp := hs.p_add
          obtain ⟨s₁, hs₁, -, ho, hcnt, hnup, hck, hturn⟩ := turn_comp h env errnoSave atflags hs hslash hrest h0 hd
            (fun e => by
              rw [h4]
              by_contra hb
              exact hleave ⟨e, Bool.not_eq_true _ ▸ hb⟩)
            (by rw [← hu] at hp; omega) (by rw [h1]; omega)
          rw [hturn, compTurn, ho, h1, hnup, h3, hck, h4]
          rw [h1] at ho
          split at ht
          · rename_i hup
            cases ht
            rw [if_pos hup]
            exact ⟨_, rfl, ⟨hs₁.size, hs₁.unread, hs₁.noNul⟩, hvlt, rfl, hcnt.trans h2, rfl, rfl⟩
          · rename_i hup
            rw [if_neg hup, ← ho]
            split at ht
            · rename_i hskip
              cases ht
              rw [if_pos hskip]
              exact skipReadlink_reads hs₁ hvlt ho (hcnt.trans h2) (hnup.trans h3)
            · rename_i hskip
              rw [if_neg hskip]
              exact ask_follows hs₁ hvlt ho (hcnt.trans h2) (hnup.trans h3) (hck.trans h4) ht

theorem loop_follows {fuel : Nat} {y : Reading} (hr : s.Reads x) (hw : x.walk h env atflags fuel = some y) :
    ∃ s', loop h env errnoSave atflags fuel s = .done s' ∧ s'.Reads y := by
  induction fuel generalizing s x with
  | zero => cases hw
  | succ fuel ih =>
    rw [Reading.walk] at hw
    rw [loop]
    cases ht : x.turn h env atflags with
    | none =>
      rw [ht] at hw
      cases hw
    | some T =>
      have hf : Reading.Follows (turn h env errnoSave atflags s) T := turn_follows hr ht
      rw [ht] at hw
      cases T with
      | next y' =>
        obtain ⟨s₁, hT, hs₁⟩ := hf
        rw [hT]
        exact ih hs₁.skipped hw
      | restart y' =>
        obtain ⟨s₁, hT, hs₁⟩ := hf
        rw [hT]
        exact ih hs₁ hw
      | leave y' =>
        obtain ⟨s₁, hT, hs₁⟩ := hf
        cases hw
        rw [hT]
        exact ⟨s₁, rfl, hs₁⟩
      | fail e => cases hw
      | fault => cases hw

end

/-! ## The whole walk -/

def walkText (h : Host) (env : Option Str) (fuel : Nat) (path : Str) (atflags : Word) : Option Reading :=
  if path = [] ∨ pathMax ≤ path.length ∨ nul ∈ path then none
  else Reading.walk h env atflags fuel ⟨path, [], 0, 0, false⟩

def Reading.absolute (h : Host) (x : Reading) : Ret Str :=
  Iamroot.absolute h ⟨[], 0, x.output, x.cnt, x.nup, x.checkDir, none⟩

theorem initial_reads {path : Str} (hlt : path.length < pathMax) (hnul : nul ∉ path) (errno : Option Errno) :
    (initial path errno).Reads ⟨path, [], 0, 0, false⟩ :=
  ⟨initial_holds hlt hnul errno, hlt, rfl, rfl, rfl, rfl⟩

theorem realpathat_text {h : Host} {env : Option Str} {errno : Option Errno} {fuel : Nat} {path : Str} {atflags : Word}
    {r : Ret Str} (hw : (walkText h env fuel path atflags).map (Reading.absolute h) = some r) :
    realpathat h env errno fuel path atflags = r := by
  obtain ⟨x, hx, rfl⟩ := Option.map_eq_some_iff.mp hw
  unfold walkText at hx
  split at hx
  · cases hx
  · rename_i hok
    rw [not_or, not_or, Nat.not_le] at hok
    obtain ⟨hne, hlt, hnul⟩ := hok
    obtain ⟨s', hl, hs'⟩ : ∃ s', loop h env errno atflags fuel (initial path errno) = .done s' ∧ s'.Reads x :=
      loop_follows (initial_reads hlt hnul errno) hx
    have hpos := List.length_pos_of_ne_nil hne
    unfold realpathat
    rw [strnlen, if_neg (by omega), if_neg (by omega), hl]
    simp only [Reading.absolute, absolute, hs'.output, hs'.nup]

end Iamroot
