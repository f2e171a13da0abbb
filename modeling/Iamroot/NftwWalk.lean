import Iamroot.Nftw

/-!
# What a walk calls

The walk with its buffer makes the calls of the walk without one, stays inside of
the buffer, and leaves the path in it as it was.
-/

namespace Iamroot

open Callback

/-! ## The buffer -/

structure Held (path : Str) (buf : List Char) : Prop where
  length : buf.length = pathMax + 1
  ends : path ++ [nul] <+: buf
  noNul : nul ∉ path

/-- What is run in the buffer ends as `r` tells, and leaves a buffer with `P` when there is more to do. -/
def FtwAgrees {σ : Type} (P : List Char → Prop) (out : FtwOut σ) (r : σ × Ended Errno) : Prop :=
  ∃ buf, out = some (buf, r) ∧ (r.2 = .done → P buf)

section
variable {path name : Str} {buf : List Char}

theorem Held.cstr (h : Held path buf) : cstr buf = path := by
  obtain ⟨t, rfl⟩ := h.ends
  rw [List.append_assoc]
  exact cstr_append_nul path t h.noNul

theorem Held.short (h : Held path buf) : path.length ≤ pathMax := by
  have hle := h.ends.length_le
  rw [h.length, List.length_append, List.length_singleton] at hle
  omega

theorem Held.pre (h : Held path buf) : path <+: buf := (List.prefix_append path [nul]).trans h.ends

theorem ftwLength_le : ftwLength path ≤ path.length := by
  unfold ftwLength
  split <;> omega

theorem prefix_ftwJoin (path name : Str) : path <+: ftwJoin path name := by
  unfold ftwJoin ftwLength
  split
  · rename_i h
    obtain ⟨p, rfl⟩ := List.getLast?_eq_some_iff.mp h
    rw [List.length_append, List.length_singleton, Nat.add_sub_cancel, List.take_left]
    exact ⟨name, by simp⟩
  · rw [List.take_length]
    exact List.prefix_append _ _

theorem length_ftwJoin : (ftwJoin path name).length = ftwLength path + 1 + name.length := by
  have hle := @ftwLength_le path
  rw [ftwJoin, List.length_append, List.length_take, List.length_cons]
  omega

theorem nul_not_mem_ftwJoin (hp : nul ∉ path) (hn : nul ∉ name) : nul ∉ ftwJoin path name := by
  have hslash : nul ≠ '/' := by decide
  simp only [ftwJoin, List.mem_append, List.mem_cons, hslash, false_or, not_or]
  exact ⟨fun h => hp (List.mem_of_mem_take h), hn⟩

theorem write_entry (hlen : buf.length = pathMax + 1) (hpre : path <+: buf) (hnul : nul ∉ path) (hn : nul ∉ name)
    (hfits : name.length < pathMax - path.length) :
    ∃ buf', ((bufSet buf (ftwLength path) '/').bind fun buf => bufCpy buf (ftwLength path + 1) name) = some buf' ∧
      Held (ftwJoin path name) buf' := by
  have hle := @ftwLength_le path
  obtain ⟨t, rfl⟩ := hpre
  have hset : ftwLength path < (path ++ t).length := by omega
  have hcpy : ftwLength path + 1 + name.length < ((path ++ t).set (ftwLength path) '/').length := by
    rw [List.length_set, hlen]
    omega
  have htake : ((path ++ t).set (ftwLength path) '/').take (ftwLength path + 1) = path.take (ftwLength path) ++ ['/'] := by
    rw [List.take_add_one, List.getElem?_set_self hset, List.take_set_of_le (Nat.le_refl _), List.take_append_of_le_length hle]
    rfl
  refine ⟨_, by rw [bufSet, if_pos hset, Option.bind_some, bufCpy, if_pos hcpy], ?_, ?_, nul_not_mem_ftwJoin hnul hn⟩
  · have hle' : ftwLength path + 1 ≤ ((path ++ t).set (ftwLength path) '/').length := by omega
    rw [List.length_append, List.length_append, List.length_cons, List.length_drop, List.length_take_of_le hle']
    rw [List.length_set, hlen] at *
    omega
  · rw [htake]
    refine ⟨List.drop (ftwLength path + 1 + name.length + 1) ((path ++ t).set (ftwLength path) '/'), ?_⟩
    simp [ftwJoin]

theorem write_end (hlen : buf.length = pathMax + 1) (hpre : path <+: buf) (hnul : nul ∉ path) (hshort : path.length ≤ pathMax) :
    ∃ buf', bufSet buf path.length nul = some buf' ∧ Held path buf' := by
  obtain ⟨t, rfl⟩ := hpre
  have hset : path.length < (path ++ t).length := by omega
  refine ⟨_, by rw [bufSet, if_pos hset], by rw [List.length_set, hlen], ?_, hnul⟩
  cases t with
  | nil => simp at hset
  | cons c t => exact ⟨t, by simp⟩

end

section
variable {σ : Type} {P Q : List Char → Prop} {out : FtwOut σ} {r : σ × Ended Errno}

theorem FtwAgrees.proceed {next : List Char → σ → FtwOut σ} {g : σ → σ × Ended Errno} (h : FtwAgrees P out r)
    (hnext : ∀ buf s, P buf → FtwAgrees Q (next buf s) (g s)) : FtwAgrees Q (proceed out next) (andThen r g) := by
  obtain ⟨buf, rfl, hP⟩ := h
  obtain ⟨s, e⟩ := r
  cases e with
  | done => exact hnext buf s (hP rfl)
  | stopped r => exact ⟨buf, rfl, fun h => by cases h⟩
  | failed e => exact ⟨buf, rfl, fun h => by cases h⟩

variable {w : Ftw} {fn : σ → FtwCall → σ × Int} {path : Str} {buf : List Char} {s : σ}

structure Goes (path : Str) (buf : List Char) : Prop where
  length : buf.length = pathMax + 1
  pre : path <+: buf

theorem Held.goes (h : Held path buf) : Goes path buf := ⟨h.length, h.pre⟩

theorem nftwEntries_agrees {below : List Char → σ → FtwOut σ} {wbelow : Str → Report FtwCall Errno}
    (hbelow : ∀ q buf s, Held q buf → FtwAgrees (Held q) (below buf s) ((wbelow q).run fn s)) (hnul : nul ∉ path)
    (hshort : path.length ≤ pathMax) {names : List Str} (hnames : ∀ n ∈ names, nul ∉ n) (hbuf : Goes path buf) :
    FtwAgrees (Goes path) (nftwEntries below path.length (ftwLength path) names buf s) ((Ftw.walkEntries wbelow path names).run fn s) := by
  induction names generalizing buf s with
  | nil => exact ⟨buf, rfl, fun _ => hbuf⟩
  | cons name names ih =>
    have ih := fun buf s hbuf => @ih buf s (fun n hn => hnames n (List.mem_cons_of_mem name hn)) hbuf
    have hroom : (2 ^ 64 + pathMax - path.length) % 2 ^ 64 = pathMax - path.length := by
      have hmax : pathMax < 2 ^ 64 := by decide
      rw [Nat.add_sub_assoc hshort, Nat.add_mod_left]
      exact Nat.mod_eq_of_lt (by omega)
    unfold nftwEntries Ftw.walkEntries
    by_cases hdot : name = ['.'] ∨ name = ['.', '.']
    · rw [if_pos hdot, if_pos hdot]
      exact ih buf s hbuf
    · rw [if_neg hdot, if_neg hdot, hroom]
      by_cases hlong : pathMax - path.length ≤ name.length
      · rw [if_pos hlong, if_pos hlong]
        exact ⟨buf, rfl, fun h => by cases h⟩
      · rw [if_neg hlong, if_neg hlong]
        obtain ⟨buf', hwrite, hheld⟩ := write_entry hbuf.length hbuf.pre hnul (hnames name List.mem_cons_self) (Nat.lt_of_not_le hlong)
        rw [← Option.bind_assoc, hwrite, Option.bind_some, Report.run_seq]
        refine (hbelow _ buf' s hheld).proceed fun buf s hbuf => ih buf s ⟨hbuf.length, ?_⟩
        exact (prefix_ftwJoin path name).trans hbuf.pre

def BelowAgrees (fn : σ → FtwCall → σ × Int) : Option (List History → List Char → σ → FtwOut σ) →
    Option (List History → Str → Report FtwCall Errno) → Prop
  | none, none => True
  | some below, some wbelow => ∀ h path buf s, Held path buf → FtwAgrees (Held path) (below h buf s) ((wbelow h path).run fn s)
  | _, _ => False

variable {below : Option (List History → List Char → σ → FtwOut σ)}
  {wbelow : Option (List History → Str → Report FtwCall Errno)} {h : List History}

theorem nftwBelow_agrees (hbelow : BelowAgrees fn below wbelow) {c : FtwCall} (hheld : Held c.path buf) :
    FtwAgrees (Goes c.path) (nftwBelow w below h c buf s) ((w.walkBelow wbelow h c).run fn s) := by
  have hdone : FtwAgrees (Goes c.path) (some (buf, s, .done)) ((.empty : Report FtwCall Errno).run fn s) :=
    ⟨buf, rfl, fun _ => hheld.goes⟩
  cases below with
  | none =>
    cases wbelow with
    | none => exact hdone
    | some wbelow => exact hbelow.elim
  | some below =>
    cases wbelow with
    | none => exact hbelow.elim
    | some wbelow =>
      unfold nftwBelow Ftw.walkBelow
      by_cases hdir : c.type.isDir = true
      · simp only [if_pos hdir]
        cases w.open_ c.path with
        | some e => exact ⟨buf, rfl, fun h => by cases h⟩
        | none =>
          cases hread : w.readdir c.path with
          | error e => exact ⟨buf, rfl, fun h => by cases h⟩
          | ok names =>
            have hnames := (w.names c.path names hread).2
            exact nftwEntries_agrees (hbelow _) hheld.noNul hheld.short (fun n hn => (hnames n hn).2.1) hheld.goes
      · simp only [if_neg hdir]
        exact hdone

theorem nftwBody_agrees (hbelow : BelowAgrees fn below wbelow) (hheld : Held path buf) :
    FtwAgrees (Held path) (nftwBody w fn below h buf s) ((w.walkBody wbelow h path).run fn s) := by
  have hdone : ∀ buf s, Held path buf → FtwAgrees (Held path) (some (buf, s, .done)) ((.empty : Report FtwCall Errno).run fn s) :=
    fun buf s hbuf => ⟨buf, rfl, fun _ => hbuf⟩
  unfold nftwBody Ftw.walkBody
  rw [hheld.cstr]
  cases w.classify path with
  | error e => exact ⟨buf, rfl, fun h => by cases h⟩
  | ok r =>
    obtain ⟨type, st⟩ := r
    dsimp only
    by_cases hcross : w.crosses h type st = true
    · rw [if_pos hcross, if_pos hcross]
      exact hdone buf s hheld
    · rw [if_neg hcross, if_neg hcross, Report.run_seq]
      generalize hc : w.callOf h path type st = c
      have hpath : c.path = path := hc ▸ rfl
      have hfirst : FtwAgrees (Held path) (some (buf, if w.depth then (s, .done) else call fn c s))
          ((if w.depth then .empty else .event c : Report FtwCall Errno).run fn s) := by
        cases w.depth with
        | true => exact hdone buf s hheld
        | false =>
          rw [if_neg Bool.false_ne_true, if_neg Bool.false_ne_true, Report.run_event]
          exact ⟨buf, rfl, fun _ => hheld⟩
      refine hfirst.proceed fun buf s hbuf => ?_
      by_cases hcyc : cyclic h st = true
      · rw [if_pos hcyc, if_pos hcyc]
        exact hdone buf s hbuf
      · rw [if_neg hcyc, if_neg hcyc, Report.run_seq]
        have hentries := @nftwBelow_agrees _ w fn buf s below wbelow h hbelow c (hpath.symm ▸ hbuf)
        refine hentries.proceed fun buf s hgoes => ?_
        rw [hpath] at hgoes
        obtain ⟨buf', hend, hheld'⟩ := write_end hgoes.length hgoes.pre hheld.noNul hheld.short
        rw [hpath, hend, Option.map_some]
        have hcall : { c with path := cstr buf' } = c := by rw [hheld'.cstr, ← hpath]
        rw [hcall]
        cases w.depth with
        | true =>
          rw [if_pos rfl, if_pos rfl, Report.run_event]
          exact ⟨buf', rfl, fun _ => hheld'⟩
        | false => exact hdone buf' s hheld'

/-- `do_nftw` stays in its buffer and makes the calls of the walk. -/
theorem doNftw_agrees (n : Nat) (h : List History) (hheld : Held path buf) :
    FtwAgrees (Held path) (doNftw w fn n h buf s) ((w.walk n h path).run fn s) := by
  induction n generalizing h path buf s with
  | zero =>
    have hnone : BelowAgrees fn none none := trivial
    exact nftwBody_agrees hnone hheld
  | succ n ih =>
    have hsome : BelowAgrees fn (some (doNftw w fn n)) (some (w.walk n)) := fun h path buf s hheld => ih h hheld
    exact nftwBody_agrees hsome hheld

theorem nftw_run {mem : List Char} (hmem : mem.length = pathMax + 1) (hpath : nul ∉ path) (hshort : path.length ≤ pathMax) (n : Nat) :
    ((bufCpy mem 0 path).bind fun buf => (doNftw w fn n [] buf s).map (·.2)) = some ((w.walk n [] path).run fn s) := by
  have hcpy : 0 + path.length < mem.length := by omega
  have hheld : Held path (mem.take 0 ++ path ++ nul :: mem.drop (0 + path.length + 1)) := by
    refine ⟨?_, ⟨mem.drop (0 + path.length + 1), by simp⟩, hpath⟩
    simp only [List.length_append, List.length_cons, List.length_drop, List.length_take]
    omega
  obtain ⟨buf, hwalk, -⟩ : FtwAgrees _ (doNftw w fn n [] _ s) _ := doNftw_agrees n [] hheld
  rw [bufCpy, if_pos hcpy, Option.bind_some, hwalk]
  rfl

end

/-- `nftw` never writes outside of its buffer, and makes the calls of the walk, one after the other, until the callback stops it. -/
theorem nftw_calls {σ : Type} (w : Ftw) (fn : σ → FtwCall → σ × Int) (env : Option Str) {mem : List Char}
    (hmem : mem.length = pathMax + 1) {path : Str} (hpath : nul ∉ path) (fdLimit : Int) (s : σ) :
    nftw w fn env mem path fdLimit s = some (
      if fdLimit ≤ 0 then (s, .done)
      else if pathMax < path.length then (s, .failed .ENAMETOOLONG)
      else (w.walk fdLimit.toNat [] path).run (nftwCallback fn env) s) := by
  unfold nftw
  by_cases hlimit : fdLimit ≤ 0
  · rw [if_pos hlimit, if_pos hlimit]
  · rw [if_neg hlimit, if_neg hlimit]
    by_cases hlong : pathMax < path.length
    · rw [if_pos hlong, if_pos hlong]
    · rw [if_neg hlong, if_neg hlong]
      exact nftw_run hmem hpath (Nat.le_of_not_lt hlong) fdLimit.toNat

/-! ## The limit -/

section
variable {w : Ftw} {h : List History} {path : Str}

def ids (h : List History) : List (Nat × Nat) := h.map fun a => (a.dev, a.ino)

theorem cyclic_iff {st : FtwStat} : cyclic h st = true ↔ (st.dev, st.ino) ∈ ids h := by
  simp only [cyclic, ids, List.any_eq_true, List.mem_map, Bool.and_eq_true, decide_eq_true_eq, Prod.mk.injEq]

theorem isDir_of_callOf {type : FtwType} {st : FtwStat} (hdir : (w.callOf h path type st).type.isDir = true) : type.isDir = true := by
  by_cases ht : type.isDir = true
  · exact ht
  · simp [Ftw.callOf, ht] at hdir

theorem walkEntries_congr {b b' : Str → Report FtwCall Errno} {names : List Str}
    (hb : ∀ n ∈ names, b (ftwJoin path n) = b' (ftwJoin path n)) :
    Ftw.walkEntries b path names = Ftw.walkEntries b' path names := by
  induction names with
  | nil => rfl
  | cons name names ih =>
    rw [Ftw.walkEntries, Ftw.walkEntries, hb name List.mem_cons_self, ih fun n hn => hb n (List.mem_cons_of_mem name hn)]

theorem walkBody_congr {b b' : Option (List History → Str → Report FtwCall Errno)}
    (hb : ∀ type st, w.classify path = .ok (type, st) → type.isDir = true → cyclic h st = false →
      w.walkBelow b h (w.callOf h path type st) = w.walkBelow b' h (w.callOf h path type st)) :
    w.walkBody b h path = w.walkBody b' h path := by
  unfold Ftw.walkBody
  cases hclass : w.classify path with
  | error e => rfl
  | ok r =>
    obtain ⟨type, st⟩ := r
    dsimp only
    by_cases hcyc : cyclic h st = true
    · rw [if_pos hcyc, if_pos hcyc]
    · rw [if_neg hcyc, if_neg hcyc]
      by_cases hdir : type.isDir = true
      · rw [hb type st hclass hdir (Bool.not_eq_true _ ▸ hcyc)]
      · have hleaf : ∀ b, w.walkBelow b h (w.callOf h path type st) = .empty := by
          intro b
          cases b with
          | none => rfl
          | some b => exact if_neg fun hd => hdir (isDir_of_callOf hd)
        rw [hleaf, hleaf]

/-- The ids of the directories that a walk has come through, none of them twice. -/
structure Came (D : List (Nat × Nat)) (h : List History) : Prop where
  nodup : (ids h).Nodup
  subset : ids h ⊆ D

theorem Came.descend {D : List (Nat × Nat)} {st : FtwStat} (hcame : Came D h) (hst : (st.dev, st.ino) ∈ D) (hcyc : cyclic h st = false)
    {a : History} (hdev : a.dev = st.dev) (hino : a.ino = st.ino) : Came D (a :: h) ∧ h.length + 1 ≤ D.length := by
  have hid : ids (a :: h) = (st.dev, st.ino) :: ids h := by rw [← hdev, ← hino]; rfl
  have hnot : (st.dev, st.ino) ∉ ids h := fun hm => by
    rw [cyclic_iff.mpr hm] at hcyc
    cases hcyc
  have hnd : (ids (a :: h)).Nodup := hid ▸ List.nodup_cons.mpr ⟨hnot, hcame.nodup⟩
  have hss : ids (a :: h) ⊆ D := hid ▸ List.cons_subset.mpr ⟨hst, hcame.subset⟩
  have hlen := hnd.length_le_of_subset hss
  rw [ids, List.length_map, List.length_cons] at hlen
  exact ⟨⟨hnd, hss⟩, hlen⟩

/-- There is a limit that no walk comes to: it does not go into a directory twice on one path. -/
theorem walk_limit {D : List (Nat × Nat)}
    (hD : ∀ p type st, w.classify p = .ok (type, st) → type.isDir = true → (st.dev, st.ino) ∈ D) {n m : Nat} (hcame : Came D h)
    (hn : D.length ≤ n + h.length) (hm : D.length ≤ m + h.length) : w.walk n h path = w.walk m h path := by
  induction n generalizing m h path with
  | zero =>
    cases m with
    | zero => rfl
    | succ m =>
      refine walkBody_congr fun type st hclass hdir hcyc => ?_
      have hlen := (hcame.descend (hD _ _ _ hclass hdir) hcyc (a := ⟨st.dev, st.ino, 0, 0⟩) rfl rfl).2
      omega
  | succ n ih =>
    cases m with
    | zero =>
      refine walkBody_congr fun type st hclass hdir hcyc => ?_
      have hlen := (hcame.descend (hD _ _ _ hclass hdir) hcyc (a := ⟨st.dev, st.ino, 0, 0⟩) rfl rfl).2
      omega
    | succ m =>
      refine walkBody_congr fun type st hclass hdir hcyc => ?_
      have hcame' := (hcame.descend (hD _ _ _ hclass hdir) hcyc (a := (w.callOf h path type st).history) rfl rfl).1
      unfold Ftw.walkBelow
      dsimp only
      split
      · split
        · rfl
        · split
          · rfl
          · exact walkEntries_congr fun name _ => ih hcame' (by rw [List.length_cons]; omega) (by rw [List.length_cons]; omega)
      · rfl

end

/-! ## What is called -/

namespace Ftw
variable (w : Ftw)

def visit (h : List History) (path : Str) : Option FtwCall :=
  match w.classify path with
  | .error _ => none
  | .ok (type, st) => if w.crosses h type st then none else some (w.callOf h path type st)

def entries (path : Str) : List Str :=
  match w.readdir path with
  | .error _ => []
  | .ok names => names.filter fun n => n ≠ ['.'] && n ≠ ['.', '.']

/-- What a walk meets at most `n` levels below `path`: it goes into a directory that it has not come through. -/
inductive Met : Nat → List History → Str → List History → Str → Prop
  | here {n : Nat} {h : List History} {path : Str} : Met n h path h path
  | entry {n : Nat} {h h' : List History} {path path' name : Str} {c : FtwCall} : w.visit h path = some c → cyclic h c.st = false →
    c.type.isDir = true → name ∈ w.entries path → Met n (c.history :: h) (ftwJoin path name) h' path' → Met (n + 1) h path h' path'

end Ftw

section
variable {w : Ftw} {h h' : List History} {path path' : Str} {n : Nat} {c : FtwCall}

theorem visit_call (hv : w.visit h path = some c) : ∃ type st, w.callOf h path type st = c := by
  unfold Ftw.visit at hv
  split at hv
  · cases hv
  · split at hv
    · cases hv
    · exact ⟨_, _, Option.some.inj hv⟩

theorem visit_path (hv : w.visit h path = some c) : c.path = path := by
  obtain ⟨type, st, rfl⟩ := visit_call hv
  rfl

theorem walkEntries_done {b : Str → Report FtwCall Errno} {names : List Str} (hdone : (Ftw.walkEntries b path names).fail = none) :
    (Ftw.walkEntries b path names).events =
        (names.filter fun n => n ≠ ['.'] && n ≠ ['.', '.']).flatMap (fun n => (b (ftwJoin path n)).events) ∧
      ∀ n ∈ names.filter (fun n => n ≠ ['.'] && n ≠ ['.', '.']), (b (ftwJoin path n)).fail = none := by
  induction names with
  | nil => exact ⟨rfl, by simp⟩
  | cons name names ih =>
    unfold Ftw.walkEntries at hdone ⊢
    by_cases hdot : name = ['.'] ∨ name = ['.', '.']
    · rw [if_pos hdot] at hdone ⊢
      rw [List.filter_cons_of_neg (by simpa [or_iff_not_imp_left] using hdot)]
      exact ih hdone
    · rw [if_neg hdot] at hdone ⊢
      rw [List.filter_cons_of_pos (by simpa [not_or] using hdot)]
      split at hdone
      · cases hdone
      · rename_i hlong
        obtain ⟨hfirst, hrest⟩ := Report.seq_fail.mp hdone
        obtain ⟨hevents, hall⟩ := ih hrest
        rw [if_neg hlong, Report.seq_events hfirst, hevents, List.flatMap_cons]
        refine ⟨rfl, fun n hn => ?_⟩
        rcases List.mem_cons.mp hn with rfl | hn
        · exact hfirst
        · exact hall n hn

/-- What a walk that comes to its end calls at a path and below it. -/
def listing (w : Ftw) (h : List History) (c : FtwCall) (below : List FtwCall) : List FtwCall :=
  if w.depth then if cyclic h c.st then [] else below ++ [c]
  else c :: if cyclic h c.st then [] else below

theorem walkBody_done {b : Option (List History → Str → Report FtwCall Errno)} (hdone : (w.walkBody b h path).fail = none) :
    (w.walkBody b h path).events = (w.visit h path).elim [] (fun c => listing w h c (w.walkBelow b h c).events) ∧
      ∀ c, w.visit h path = some c → cyclic h c.st = false → (w.walkBelow b h c).fail = none := by
  unfold Ftw.walkBody at hdone ⊢
  unfold Ftw.visit
  cases hclass : w.classify path with
  | error e =>
    rw [hclass] at hdone
    cases hdone
  | ok r =>
    obtain ⟨type, st⟩ := r
    rw [hclass] at hdone
    dsimp only at hdone ⊢
    by_cases hcross : w.crosses h type st = true
    · rw [if_pos hcross, if_pos hcross]
      exact ⟨rfl, fun c hc => by cases hc⟩
    · rw [if_neg hcross] at hdone ⊢
      rw [if_neg hcross, Option.elim_some]
      generalize hc : w.callOf h path type st = c at hdone ⊢
      have hst : c.st = st := hc ▸ rfl
      have hfirst := (Report.seq_fail.mp hdone).1
      have hrest := (Report.seq_fail.mp hdone).2
      rw [Report.seq_events hfirst]
      unfold listing
      rw [hst]
      by_cases hcyc : cyclic h st = true
      · rw [if_pos hcyc, if_pos hcyc, if_pos hcyc]
        refine ⟨?_, fun c' hc' hn => ?_⟩
        · cases w.depth <;> rfl
        · cases hc'
          rw [hst, hcyc] at hn
          cases hn
      · rw [if_neg hcyc] at hrest
        rw [if_neg hcyc, if_neg hcyc, if_neg hcyc]
        obtain ⟨hbelow, -⟩ := Report.seq_fail.mp hrest
        rw [Report.seq_events hbelow]
        refine ⟨?_, fun c' hc' _ => ?_⟩
        · cases w.depth with
          | true => rfl
          | false => exact congrArg (c :: ·) (List.append_nil _)
        · cases hc'
          exact hbelow

theorem walkBelow_done {b : List History → Str → Report FtwCall Errno} (hc : c.path = path)
    (hdone : (w.walkBelow (some b) h c).fail = none) :
    (w.walkBelow (some b) h c).events =
        (if c.type.isDir then (w.entries path).flatMap fun n => (b (c.history :: h) (ftwJoin path n)).events else []) ∧
      (c.type.isDir = true → ∀ n ∈ w.entries path, (b (c.history :: h) (ftwJoin path n)).fail = none) := by
  subst hc
  unfold Ftw.walkBelow at hdone ⊢
  dsimp only at hdone ⊢
  by_cases hdir : c.type.isDir = true
  · rw [if_pos hdir] at hdone ⊢
    rw [if_pos hdir]
    cases hopen : w.open_ c.path with
    | some e =>
      rw [hopen] at hdone
      cases hdone
    | none =>
      rw [hopen] at hdone
      unfold Ftw.entries
      cases hread : w.readdir c.path with
      | error e =>
        rw [hread] at hdone
        cases hdone
      | ok names =>
        rw [hread] at hdone
        obtain ⟨hevents, hall⟩ := walkEntries_done hdone
        exact ⟨hevents, fun _ => hall⟩
  · rw [if_neg hdir, if_neg hdir]
    exact ⟨rfl, fun h => absurd h hdir⟩

theorem mem_listing {c₀ : FtwCall} {below : List FtwCall} : c ∈ listing w h c₀ below ↔
    (c = c₀ ∧ (w.depth = true → cyclic h c₀.st = false)) ∨ (cyclic h c₀.st = false ∧ c ∈ below) := by
  unfold listing
  cases w.depth <;> cases cyclic h c₀.st <;> simp [or_comm]

theorem walk_done_zero (hdone : (w.walk 0 h path).fail = none) :
    (w.walk 0 h path).events = (w.visit h path).elim [] fun c => listing w h c [] := (walkBody_done hdone).1

/-- The calls of a walk, from those of the walks of its entries. -/
theorem walk_done_succ (hdone : (w.walk (n + 1) h path).fail = none) :
    (w.walk (n + 1) h path).events = ((w.visit h path).elim [] fun c => listing w h c
        (if c.type.isDir then (w.entries path).flatMap fun name => (w.walk n (c.history :: h) (ftwJoin path name)).events else [])) ∧
      ∀ c, w.visit h path = some c → cyclic h c.st = false → c.type.isDir = true →
        ∀ name ∈ w.entries path, (w.walk n (c.history :: h) (ftwJoin path name)).fail = none := by
  obtain ⟨hevents, hbelow⟩ := walkBody_done hdone
  cases hv : w.visit h path with
  | none =>
    rw [hv] at hevents
    exact ⟨hevents, fun c hc => by cases hc⟩
  | some c =>
    rw [hv] at hevents
    have hbelow := hbelow c hv
    refine ⟨?_, fun c' hc' hcyc => ?_⟩
    · refine hevents.trans ?_
      rw [Option.elim_some, Option.elim_some]
      by_cases hcyc : cyclic h c.st = true
      · unfold listing
        rw [if_pos hcyc, if_pos hcyc, if_pos hcyc, if_pos hcyc]
      · rw [(walkBelow_done (visit_path hv) (hbelow (Bool.not_eq_true _ ▸ hcyc))).1]
    · cases hc'
      exact (walkBelow_done (visit_path hv) (hbelow hcyc)).2

/-- Something is called just in case it is met, and is not a directory that the walk has come through when those are called
behind their entries. -/
theorem walk_met (hdone : (w.walk n h path).fail = none) : c ∈ (w.walk n h path).events ↔
    ∃ h' path', w.Met n h path h' path' ∧ w.visit h' path' = some c ∧ (w.depth = true → cyclic h' c.st = false) := by
  induction n generalizing h path with
  | zero =>
    rw [walk_done_zero hdone]
    constructor
    · intro hc
      cases hv : w.visit h path with
      | none =>
        rw [hv] at hc
        cases hc
      | some c₀ =>
        rw [hv, Option.elim_some, mem_listing] at hc
        rcases hc with ⟨rfl, hcyc⟩ | ⟨-, hc⟩
        · exact ⟨h, path, .here, hv, hcyc⟩
        · cases hc
    · rintro ⟨h', path', hmet, hv, hcyc⟩
      cases hmet
      rw [hv, Option.elim_some, mem_listing]
      exact .inl ⟨rfl, hcyc⟩
  | succ n ih =>
    obtain ⟨hevents, hbelow⟩ := walk_done_succ hdone
    rw [hevents]
    constructor
    · intro hc
      cases hv : w.visit h path with
      | none =>
        rw [hv] at hc
        cases hc
      | some c₀ =>
        rw [hv, Option.elim_some, mem_listing] at hc
        rcases hc with ⟨rfl, hcyc⟩ | ⟨hcyc, hc⟩
        · exact ⟨h, path, .here, hv, hcyc⟩
        · by_cases hdir : c₀.type.isDir = true
          · rw [if_pos hdir] at hc
            obtain ⟨name, hname, hc⟩ := List.mem_flatMap.mp hc
            obtain ⟨h', path', hmet, hv', hcyc'⟩ := (ih (hbelow c₀ hv hcyc hdir name hname)).mp hc
            exact ⟨h', path', .entry hv hcyc hdir hname hmet, hv', hcyc'⟩
          · rw [if_neg hdir] at hc
            cases hc
    · rintro ⟨h', path', hmet, hv', hcyc'⟩
      cases hmet with
      | here =>
        rw [hv', Option.elim_some, mem_listing]
        exact .inl ⟨rfl, hcyc'⟩
      | @entry _ _ _ _ _ name c₀ hv hcyc hdir hname hmet =>
        rw [hv, Option.elim_some, mem_listing, if_pos hdir]
        refine .inr ⟨hcyc, List.mem_flatMap.mpr ⟨name, hname, ?_⟩⟩
        exact (ih (hbelow c₀ hv hcyc hdir name hname)).mpr ⟨h', path', hmet, hv', hcyc'⟩

end

/-! ## The order of the calls -/

def Along (q p : Str) : Prop := q ++ ['/'] <+: p ++ ['/']

def Lies (q p : Str) : Prop := p ≠ q ∧ ftwJoin q [] <+: p

/-- Nothing is called twice, and a directory before what lies beneath it, or behind that with `FTW_DEPTH`. -/
def Ordered (depth : Bool) (a b : FtwCall) : Prop :=
  a.path ≠ b.path ∧ ¬ if depth then Lies a.path b.path else Lies b.path a.path

/-- Of two calls for entries of `r`, the first one is not for the later entry. -/
def InOrder (w : Ftw) (r : Str) (a b : FtwCall) : Prop :=
  ∀ name name', [name, name'].Sublist (w.entries r) → Along (ftwJoin r name') a.path → ¬ Along (ftwJoin r name) b.path

section
variable {w : Ftw} {h h' : List History} {p q r x y name name' : Str} {n : Nat} {c : FtwCall}

theorem Along.trans (h1 : Along p q) (h2 : Along q x) : Along p x := List.IsPrefix.trans h1 h2

theorem Along.length_le (h : Along p q) : p.length ≤ q.length := by
  have hle := List.IsPrefix.length_le h
  simpa using hle

theorem entries_nodup : (w.entries p).Nodup := by
  unfold Ftw.entries
  cases hread : w.readdir p with
  | error e => exact List.nodup_nil
  | ok names => exact (w.names p names hread).1.filter _

theorem entries_name (hn : name ∈ w.entries p) : name ≠ [] ∧ '/' ∉ name := by
  unfold Ftw.entries at hn
  cases hread : w.readdir p with
  | error e =>
    rw [hread] at hn
    cases hn
  | ok names =>
    rw [hread] at hn
    have hname := (w.names p names hread).2 name (List.mem_filter.mp hn).1
    exact ⟨hname.1, hname.2.2⟩

theorem ftwJoin_of (hp : p.getLast? ≠ some '/') (name : Str) : ftwJoin p name = p ++ '/' :: name := by
  rw [ftwJoin, ftwLength, if_neg hp, List.take_length]

theorem getLast_ftwJoin (hn : name ≠ [] ∧ '/' ∉ name) : (ftwJoin p name).getLast? ≠ some '/' := by
  obtain ⟨ds, c, rfl⟩ := (List.eq_nil_or_concat' name).resolve_left hn.1
  have hcat : ftwJoin p (ds ++ [c]) = p.take (ftwLength p) ++ '/' :: ds ++ [c] := by simp [ftwJoin]
  rw [hcat, List.getLast?_concat]
  rintro ⟨⟩
  exact hn.2 (by simp)

theorem along_ftwJoin (hp : p.getLast? ≠ some '/') (name : Str) : Along p (ftwJoin p name) := by
  rw [ftwJoin_of hp]
  exact ⟨name ++ ['/'], by simp⟩

/-- What is met lies along the path of the walk. -/
theorem met_along (hq : q.getLast? ≠ some '/') (hmet : w.Met n h q h' p) : p.getLast? ≠ some '/' ∧ Along q p := by
  induction hmet with
  | here => exact ⟨hq, List.prefix_rfl⟩
  | entry _ _ _ hname _ ih =>
    obtain ⟨hp, halong⟩ := ih (getLast_ftwJoin (entries_name hname))
    exact ⟨hp, (along_ftwJoin hq _).trans halong⟩

theorem events_along (hdone : (w.walk n h q).fail = none) (hq : q.getLast? ≠ some '/') (hc : c ∈ (w.walk n h q).events) :
    c.path.getLast? ≠ some '/' ∧ Along q c.path := by
  obtain ⟨h', p, hmet, hv, -⟩ := (walk_met hdone).mp hc
  rw [visit_path hv]
  exact met_along hq hmet

theorem eq_of_along (hn : '/' ∉ name) (hn' : '/' ∉ name') (h : Along (ftwJoin p name) x) (h' : Along (ftwJoin p name') x) :
    name = name' := by
  have hwhole : ∀ {s t : Str}, '/' ∉ t → s ++ ['/'] <+: t ++ ['/'] → s = t := by
    intro s t ht hst
    rcases List.prefix_concat_iff.mp hst with he | hle
    · exact List.append_cancel_right he
    · exact absurd (hle.subset (by simp)) ht
  have hcut : ∀ {s t : Str}, ftwJoin p s ++ ['/'] <+: ftwJoin p t ++ ['/'] → s ++ ['/'] <+: t ++ ['/'] := by
    intro s t hst
    unfold ftwJoin at hst
    rw [List.append_assoc, List.append_assoc, List.prefix_append_right_inj, List.cons_append, List.cons_append,
      List.prefix_cons_inj] at hst
    exact hst
  rcases List.prefix_or_prefix_of_prefix h h' with hle | hle
  · exact hwhole hn' (hcut hle)
  · exact (hwhole hn (hcut hle)).symm

theorem Lies.along (hx : x.getLast? ≠ some '/') (h : Lies x y) : Along x y := by
  have hpre := h.2
  rw [ftwJoin_of hx] at hpre
  exact hpre.trans (List.prefix_append y ['/'])

theorem apart {a b : FtwCall} (hn : name ∈ w.entries p) (hn' : name' ∈ w.entries p) (hne : name ≠ name')
    (ha : a.path.getLast? ≠ some '/' ∧ Along (ftwJoin p name) a.path)
    (hb : b.path.getLast? ≠ some '/' ∧ Along (ftwJoin p name') b.path) (depth : Bool) : Ordered depth a b := by
  have heq : ∀ x, Along (ftwJoin p name) x → Along (ftwJoin p name') x → False := fun x h h' =>
    hne (eq_of_along (entries_name hn).2 (entries_name hn').2 h h')
  refine ⟨fun he => heq _ ha.2 (he ▸ hb.2), ?_⟩
  cases depth with
  | true => exact fun hl => heq _ (ha.2.trans (Lies.along ha.1 hl)) hb.2
  | false => exact fun hl => heq _ ha.2 (hb.2.trans (Lies.along hb.1 hl))

theorem below_top {a : FtwCall} (hn : name ≠ []) (ha : Along (ftwJoin p name) a.path) : a.path ≠ p ∧ ¬ Lies a.path p := by
  have hlt : p.length < a.path.length := by
    have hle := ha.length_le
    have hpos := List.length_pos_iff.mpr hn
    rw [length_ftwJoin] at hle
    unfold ftwLength at hle
    split at hle <;> omega
  refine ⟨fun he => by rw [he] at hlt; exact Nat.lt_irrefl _ hlt, fun hl => ?_⟩
  have hle := ((prefix_ftwJoin a.path []).trans hl.2).length_le
  omega

theorem pairwise_listing {R : FtwCall → FtwCall → Prop} {below : List FtwCall} (hbelow : below.Pairwise R)
    (htop : ∀ a ∈ below, if w.depth then R a c else R c a) : (listing w h c below).Pairwise R := by
  unfold listing
  cases hd : w.depth with
  | true =>
    rw [if_pos rfl]
    split
    · exact List.Pairwise.nil
    · rw [List.pairwise_append]
      refine ⟨hbelow, List.pairwise_singleton _ _, fun a ha b hb => ?_⟩
      have hac := htop a ha
      rw [hd, if_pos rfl] at hac
      rw [List.mem_singleton.mp hb]
      exact hac
  | false =>
    rw [if_neg Bool.false_ne_true]
    split
    · exact List.pairwise_singleton _ _
    · refine List.pairwise_cons.mpr ⟨fun a ha => ?_, hbelow⟩
      have hca := htop a ha
      rwa [hd, if_neg Bool.false_ne_true] at hca

theorem walk_zero_pairwise {R : FtwCall → FtwCall → Prop} (hdone : (w.walk 0 h p).fail = none) :
    (w.walk 0 h p).events.Pairwise R := by
  rw [walk_done_zero hdone]
  cases w.visit h p with
  | none => exact List.Pairwise.nil
  | some c => exact pairwise_listing List.Pairwise.nil fun a ha => by cases ha

/-- What holds between the calls of a walk: between those for one entry, those for two entries, and the one for the
directory itself. -/
theorem walk_succ_pairwise {R : FtwCall → FtwCall → Prop} (hdone : (w.walk (n + 1) h p).fail = none)
    (hstep : ∀ c, w.visit h p = some c → cyclic h c.st = false → c.type.isDir = true →
      (∀ name ∈ w.entries p, (w.walk n (c.history :: h) (ftwJoin p name)).events.Pairwise R) ∧
      ((w.entries p).Pairwise fun name name' => ∀ a ∈ (w.walk n (c.history :: h) (ftwJoin p name)).events,
        ∀ b ∈ (w.walk n (c.history :: h) (ftwJoin p name')).events, R a b) ∧
      ∀ name ∈ w.entries p, ∀ a ∈ (w.walk n (c.history :: h) (ftwJoin p name)).events, if w.depth then R a c else R c a) :
    (w.walk (n + 1) h p).events.Pairwise R := by
  rw [(walk_done_succ hdone).1]
  cases hv : w.visit h p with
  | none => exact List.Pairwise.nil
  | some c =>
    rw [Option.elim_some]
    by_cases hcyc : cyclic h c.st = true
    · have hempty : ∀ B, listing w h c B = listing w h c [] := by
        intro B
        unfold listing
        rw [if_pos hcyc, if_pos hcyc, if_pos hcyc, if_pos hcyc]
      rw [hempty]
      exact pairwise_listing List.Pairwise.nil fun a ha => by cases ha
    · by_cases hdir : c.type.isDir = true
      · obtain ⟨hsame, hother, htop⟩ := hstep c hv (Bool.not_eq_true _ ▸ hcyc) hdir
        rw [if_pos hdir]
        refine pairwise_listing (List.pairwise_flatMap.mpr ⟨hsame, hother⟩) fun a ha => ?_
        obtain ⟨name, hname, ha⟩ := List.mem_flatMap.mp ha
        exact htop name hname a ha
      · rw [if_neg hdir]
        exact pairwise_listing List.Pairwise.nil fun a ha => by cases ha

theorem entry_along (hdone : (w.walk (n + 1) h p).fail = none) (hv : w.visit h p = some c) (hcyc : cyclic h c.st = false)
    (hdir : c.type.isDir = true) (hname : name ∈ w.entries p) {a : FtwCall}
    (ha : a ∈ (w.walk n (c.history :: h) (ftwJoin p name)).events) :
    a.path.getLast? ≠ some '/' ∧ Along (ftwJoin p name) a.path :=
  events_along ((walk_done_succ hdone).2 c hv hcyc hdir name hname) (getLast_ftwJoin (entries_name hname)) ha

theorem walk_ordered (hdone : (w.walk n h p).fail = none) : (w.walk n h p).events.Pairwise (Ordered w.depth) := by
  induction n generalizing h p with
  | zero => exact walk_zero_pairwise hdone
  | succ n ih =>
    refine walk_succ_pairwise hdone fun c hv hcyc hdir => ⟨fun name hname => ?_, ?_, fun name hname a ha => ?_⟩
    · exact ih ((walk_done_succ hdone).2 c hv hcyc hdir name hname)
    · refine List.Pairwise.imp_of_mem ?_ entries_nodup
      intro name name' hname hname' hne a ha b hb
      exact apart hname hname' hne (entry_along hdone hv hcyc hdir hname ha) (entry_along hdone hv hcyc hdir hname' hb) w.depth
    · obtain ⟨hne, hlies⟩ := below_top (entries_name hname).1 (entry_along hdone hv hcyc hdir hname ha).2
      rw [← visit_path hv] at hne hlies
      cases hd : w.depth with
      | true => exact ⟨hne, hlies⟩
      | false => exact ⟨hne.symm, hlies⟩

theorem not_sublist_swap {l : List Str} (hl : l.Nodup) (h : [x, y].Sublist l) : ¬ [y, x].Sublist l := by
  induction l with
  | nil => cases h
  | cons z l ih =>
    intro h'
    obtain ⟨hz, hl⟩ := List.nodup_cons.mp hl
    cases h with
    | cons _ h =>
      cases h' with
      | cons _ h' => exact ih hl h h'
      | cons_cons _ h' => exact hz (h.subset (by simp))
    | cons_cons _ h =>
      cases h' with
      | cons _ h' => exact hz (h'.subset (by simp))
      | cons_cons _ h' => exact hz (h.subset (by simp))

theorem not_along_top (hn : name ≠ []) (hx : Along (ftwJoin p name) x) : ¬ Along x p := by
  intro h
  have hle := (hx.trans h).length_le
  have hpos := List.length_pos_iff.mpr hn
  rw [length_ftwJoin] at hle
  unfold ftwLength at hle
  split at hle <;> omega

/-- The entries of a directory are walked in its order. -/
theorem walk_inOrder (hdone : (w.walk n h q).fail = none) (hmet : w.Met n h q h' r) :
    (w.walk n h q).events.Pairwise (InOrder w r) := by
  induction hmet with
  | @here n h q =>
    cases n with
    | zero => exact walk_zero_pairwise hdone
    | succ n =>
      refine walk_succ_pairwise hdone fun c hv hcyc hdir => ⟨fun name hname => ?_, ?_, fun name hname a ha => ?_⟩
      · refine List.pairwise_of_forall_mem_list fun a ha b hb x y hsub hy hx => ?_
        -- both are for the same entry
        have hnames := hsub.subset
        have hax := eq_of_along (entries_name hname).2 (entries_name (hnames (by simp))).2
          (entry_along hdone hv hcyc hdir hname ha).2 hy
        have hbx := eq_of_along (entries_name hname).2 (entries_name (hnames (by simp))).2
          (entry_along hdone hv hcyc hdir hname hb).2 hx
        exact absurd (entries_nodup.sublist hsub) (by simp [← hax, ← hbx])
      · refine List.pairwise_iff_forall_sublist.mpr fun hsub' a ha b hb x y hsub hy hx => ?_
        have hnames := hsub.subset
        have hnames' := hsub'.subset
        have hay := eq_of_along (entries_name (hnames' (by simp))).2 (entries_name (hnames (by simp))).2
          (entry_along hdone hv hcyc hdir (hnames' (by simp)) ha).2 hy
        have hbx := eq_of_along (entries_name (hnames' (by simp))).2 (entries_name (hnames (by simp))).2
          (entry_along hdone hv hcyc hdir (hnames' (by simp)) hb).2 hx
        rw [hay, hbx] at hsub'
        exact not_sublist_swap entries_nodup hsub hsub'
      · have htop : ∀ x ∈ w.entries q, ¬ Along (ftwJoin q x) c.path := fun x hx h =>
          not_along_top (entries_name hx).1 List.prefix_rfl (visit_path hv ▸ h)
        split
        · exact fun x y hsub _ => htop x (hsub.subset (by simp))
        · exact fun x y hsub hy => absurd hy (htop y (hsub.subset (by simp)))
  | @entry n h h' q r name₀ c hv hcyc hdir hname₀ hmet ih =>
    have hmet := met_along (getLast_ftwJoin (entries_name hname₀)) hmet
    -- the entries of `r` are along the entry of `q` that leads there
    have hunder : ∀ {x y}, Along (ftwJoin r x) y → Along (ftwJoin q name₀) y := fun h =>
      hmet.2.trans ((along_ftwJoin hmet.1 _).trans h)
    refine walk_succ_pairwise hdone fun c' hv' hcyc' hdir' => ?_
    obtain rfl : c = c' := Option.some.inj (hv.symm.trans hv')
    refine ⟨fun name hname => ?_, ?_, fun name hname a ha => ?_⟩
    · by_cases he : name = name₀
      · subst he
        exact ih ((walk_done_succ hdone).2 c hv hcyc hdir name hname)
      · refine List.pairwise_of_forall_mem_list fun a ha b hb x y hsub hy hx => he ?_
        exact eq_of_along (entries_name hname).2 (entries_name hname₀).2 (entry_along hdone hv hcyc hdir hname ha).2 (hunder hy)
    · refine List.Pairwise.imp_of_mem ?_ entries_nodup
      intro name name' hname hname' hne a ha b hb x y hsub hy hx
      exact hne ((eq_of_along (entries_name hname).2 (entries_name hname₀).2 (entry_along hdone hv hcyc hdir hname ha).2
        (hunder hy)).trans (eq_of_along (entries_name hname').2 (entries_name hname₀).2
          (entry_along hdone hv hcyc hdir hname' hb).2 (hunder hx)).symm)
    · have htop : ∀ x, ¬ Along (ftwJoin r x) c.path := fun x h =>
        not_along_top (entries_name hname₀).1 List.prefix_rfl (visit_path hv ▸ hunder h)
      split
      · exact fun x y hsub _ => htop x
      · exact fun x y hsub hy => absurd hy (htop y)

theorem met_level (hmet : w.Met n h q h' p) :
    h'.head?.elim 0 (·.level + 1) ≤ h.head?.elim 0 (·.level + 1) + n ∧
    (h' = h ∧ p = q ∨
      ∃ a r name, h'.head? = some a ∧ a.base = ftwLength r + 1 ∧ name ∈ w.entries r ∧ p = ftwJoin r name) := by
  induction hmet with
  | here => exact ⟨Nat.le_add_right _ _, .inl ⟨rfl, rfl⟩⟩
  | @entry n h h' q p name c hv _ _ hname _ ih =>
    obtain ⟨hlevel, hlast⟩ := ih
    obtain ⟨type, st, rfl⟩ := visit_call hv
    constructor
    · have hhist : ((w.callOf h q type st).history :: h).head?.elim 0 (·.level + 1) = h.head?.elim 0 (·.level + 1) + 1 := rfl
      rw [hhist] at hlevel
      omega
    · right
      rcases hlast with ⟨rfl, rfl⟩ | hlast
      · exact ⟨_, q, name, rfl, rfl, hname, rfl⟩
      · exact hlast

/-- What a walk calls when it comes to its end: everything that is met, once and in order, a directory with its entries and
the entries as they are read, with its level, which is at most the limit, and with the place of its name in the path. -/
theorem walk_listing (w : Ftw) (n : Nat) (q : Str) (hdone : (w.walk n [] q).fail = none) :
    (∀ c, c ∈ (w.walk n [] q).events ↔
      ∃ h p, w.Met n [] q h p ∧ w.visit h p = some c ∧ (w.depth = true → cyclic h c.st = false)) ∧
    (w.walk n [] q).events.Pairwise (Ordered w.depth) ∧
    (∀ h r, w.Met n [] q h r → (w.walk n [] q).events.Pairwise (InOrder w r)) ∧
    ∀ c ∈ (w.walk n [] q).events, c.level ≤ n ∧
      (c.path = q ∨ ∃ r name, name ∈ w.entries r ∧ c.path = ftwJoin r name ∧ c.path.drop c.base = name) := by
  refine ⟨fun c => walk_met hdone, walk_ordered hdone, fun h r hmet => walk_inOrder hdone hmet, fun c hc => ?_⟩
  obtain ⟨h, p, hmet, hv, -⟩ := (walk_met hdone).mp hc
  obtain ⟨hlevel, hlast⟩ := met_level hmet
  obtain ⟨type, st, rfl⟩ := visit_call hv
  refine ⟨(Nat.zero_add n).subst (motive := fun k => _ ≤ k) hlevel, ?_⟩
  rcases hlast with ⟨-, rfl⟩ | ⟨a, r, name, ha, hbase, hname, rfl⟩
  · exact .inl rfl
  · have hdrop : (ftwJoin r name).drop (ftwLength r + 1) = name := by
      have hlen : (r.take (ftwLength r)).length = ftwLength r := List.length_take_of_le ftwLength_le
      rw [ftwJoin, ← List.singleton_append, ← List.append_assoc]
      exact List.drop_left' (by rw [List.length_append, hlen, List.length_singleton])
    refine .inr ⟨r, name, hname, rfl, ?_⟩
    show (ftwJoin r name).drop (h.head?.elim _ (·.base)) = name
    rw [ha, Option.elim_some, hbase, hdrop]

end

/-- As soon as the limit is the number of directories, a greater one makes no difference. -/
theorem nftw_limit {σ : Type} (w : Ftw) (fn : σ → FtwCall → σ × Int) (env : Option Str) {D : List (Nat × Nat)}
    (hD : ∀ p type st, w.classify p = .ok (type, st) → type.isDir = true → (st.dev, st.ino) ∈ D) {mem : List Char}
    (hmem : mem.length = pathMax + 1) {path : Str} (hpath : nul ∉ path) {n m : Int} (hn : 0 < n ∧ D.length ≤ n)
    (hm : 0 < m ∧ D.length ≤ m) (s : σ) : nftw w fn env mem path n s = nftw w fn env mem path m s := by
  unfold nftw
  rw [if_neg (Int.not_le.mpr hn.1), if_neg (Int.not_le.mpr hm.1)]
  by_cases hlong : pathMax < path.length
  · rw [if_pos hlong, if_pos hlong]
  · rw [if_neg hlong, if_neg hlong, nftw_run hmem hpath (Nat.le_of_not_lt hlong), nftw_run hmem hpath (Nat.le_of_not_lt hlong)]
    have hcame : Came D [] := ⟨List.nodup_nil, List.nil_subset D⟩
    have hwalk : w.walk n.toNat [] path = w.walk m.toNat [] path :=
      walk_limit hD hcame (by rw [List.length_nil]; omega) (by rw [List.length_nil]; omega)
    rw [hwalk]

/-! ## A directory with a link to itself -/

def loopStat (path : Str) : Except Errno FtwStat :=
  if path = "/d".toList ∨ path = "/d/l".toList then .ok ⟨1, 2, .dir⟩
  else if path = "/d/f".toList then .ok ⟨1, 3, .other⟩
  else .error .ENOENT

def loopEntries (path : Str) : Except Errno (List Str) :=
  if path = "/d".toList then .ok [['.'], ['.', '.'], ['f'], ['l']] else .error .ENOTDIR

theorem loopEntries_names (path : Str) (ns : List Str) (h : loopEntries path = .ok ns) :
    ns.Nodup ∧ ∀ n ∈ ns, n ≠ [] ∧ nul ∉ n ∧ '/' ∉ n := by
  unfold loopEntries at h
  split at h
  · cases h
    exact ⟨by decide, by decide⟩
  · cases h

def loopFtw : Ftw where
  lstat := loopStat
  stat := loopStat
  open_ _ := none
  readdir := loopEntries
  phys := false
  depth := false
  mount := false
  names := loopEntries_names

def collect (l : List Str) (c : FtwCall) : List Str × Int := (l ++ [c.path], 0)

theorem walk_listing_loop : (loopFtw.walk 5 [] "/d".toList).events.map (·.path) = ["/d".toList, "/d/f".toList, "/d/l".toList] ∧
    (loopFtw.walk 5 [] "/d".toList).events.Pairwise (Ordered false) ∧
    (loopFtw.walk 5 [] "/d".toList).events.Pairwise (InOrder loopFtw "/d".toList) := by
  obtain ⟨-, hordered, hin, -⟩ := walk_listing loopFtw 5 "/d".toList (by decide)
  exact ⟨by decide, hordered, hin [] "/d".toList .here⟩

theorem nftw_calls_loop : nftw loopFtw collect none (List.replicate (pathMax + 1) nul) "/d".toList 5 [] =
    some (["/d".toList, "/d/f".toList, "/d/l".toList], .done) :=
  (nftw_calls loopFtw collect none List.length_replicate (by decide) 5 []).trans rfl

theorem nftw_limit_loop : nftw loopFtw collect none (List.replicate (pathMax + 1) nul) "/d".toList 1 [] =
    nftw loopFtw collect none (List.replicate (pathMax + 1) nul) "/d".toList 1000000 [] := by
  have hdirs : ∀ p type st, loopFtw.classify p = .ok (type, st) → type.isDir = true → (st.dev, st.ino) ∈ [(1, 2)] := by
    intro p type st hclass hdir
    have hstat : loopFtw.classify p = if p = "/d".toList ∨ p = "/d/l".toList then .ok (.d, ⟨1, 2, .dir⟩)
        else if p = "/d/f".toList then .ok (.f, ⟨1, 3, .other⟩) else .error .ENOENT := by
      unfold Ftw.classify loopFtw loopStat
      dsimp only
      by_cases hd : p = "/d".toList ∨ p = "/d/l".toList
      · rw [if_pos hd, if_pos hd]
        rfl
      · rw [if_neg hd, if_neg hd]
        by_cases hf : p = "/d/f".toList
        · rw [if_pos hf, if_pos hf]
          rfl
        · rw [if_neg hf, if_neg hf]
          rfl
    rw [hstat] at hclass
    split at hclass
    · cases hclass
      exact List.mem_singleton.mpr rfl
    · split at hclass
      · cases hclass
        cases hdir
      · cases hclass
  exact nftw_limit loopFtw collect none hdirs List.length_replicate (by decide) ⟨by decide, by decide⟩ ⟨by decide, by decide⟩ []

end Iamroot
