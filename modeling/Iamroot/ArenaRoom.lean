import Iamroot.ExecArena
import Iamroot.Inverse
import Iamroot.Truncation

/-!
# Room for the strings of an exec

A producer keeps the strings that were laid before its offset, whether it succeeds
or fails, and leaves an offset that is not behind the end of the buffer; it may be
the end of it, where the next producer has no room for its NUL. So the strings of
an exec stand in the buffer, one behind the other, exactly when no producer that
needs a byte starts at the end, and when what is written for an empty script fits.
-/

namespace Iamroot

open Arena Arena.Making

namespace ArenaWorld

variable (w : ArenaWorld)

def after (off : Nat) (t : Str) : Nat := if t = [] then off else off + (t.length + 1)

def scriptEnd (off : Nat) (t : Str × Option Str) : Nat := off + (t.1.length + 1) + t.2.elim 0 fun a => a.length + 1

/-! ## When there is room -/

def PlaceRoom (off : Nat) (path : Str) : Prop := off < w.bufsiz ∨ ∃ e, w.spares path = some e

def placeText (off : Nat) (path : Str) : Except Errno Str :=
  if off < w.bufsiz then (w.resolve path (w.bufsiz - off)).map Subtype.val else (w.spares path).elim (.ok []) .error

def PreloadRoom (l : ArenaLoader) (off : Nat) : Prop := ∀ lib, l.lib (w.bufsiz - off) = .ok lib → off < w.bufsiz

def LibraryRoom (l : ArenaLoader) (off : Nat) : Prop := l.libraryPath.paths ≠ [] → off < w.bufsiz

def InhibitRoom (l : ArenaLoader) (off : Nat) : Prop := ∀ value, l.inhibitRpath = some value → off < w.bufsiz

def inhibitEnd (l : ArenaLoader) (off : Nat) : Nat :=
  l.inhibitRpath.elim off fun value => after off (strncpy value.1 (w.bufsiz - off))

/-- Each producer of `__ldso` starts before the end of the buffer, unless it has nothing to write. -/
def LdsoRoom (l : ArenaLoader) (off : Nat) : Prop :=
  w.PreloadRoom l off ∧ ∀ preload, w.preloadText l off = .ok preload →
    w.LibraryRoom l (after off preload) ∧
    ∀ list, addsText [] (w.bufsiz - after off preload) l.libraryPath = .ok list →
      w.InhibitRoom l (after (after off preload) list) ∧
      w.PlaceRoom (w.inhibitEnd l (after (after off preload) list)) l.ptInterp

def LoaderRoom (path program : Str) (off : Nat) : Prop :=
  w.isLdso (basename path) = false → ∀ l, w.loader program = .ok l → w.LdsoRoom l off

def ScriptRoom (program : Str) (off : Nat) : Prop :=
  ∀ f, w.file program = .ok f → if f.1 = 0 then off + pathBshell.length < w.bufsiz else off < w.bufsiz

def ProgramRoom (path program : Str) (off : Nat) : Prop :=
  w.ScriptRoom program off ∧
  (w.scriptText program off = .error .ENOEXEC → w.LoaderRoom path program off) ∧
  ∀ script, w.scriptText program off = .ok script →
    w.PlaceRoom (scriptEnd off script) script.1 ∧
    ∀ interp, w.placeText (scriptEnd off script) script.1 = .ok interp →
      w.LoaderRoom path interp (scriptEnd off script + (interp.length + 1))

def Roomy (path : Str) : Prop :=
  w.execIgnored path = false → ∀ program, w.placeText 0 path = .ok program → w.canExec program = .ok true →
    w.inchroot = true → w.ProgramRoom path program (program.length + 1)

/-! ## The buffer between two producers -/

structure Ready (m : Mem) (off : Nat) (ps : List Placed) : Prop where
  laid : Laid nul m off ps
  le : off ≤ w.bufsiz
  /-- The program, which `__getlibiamroot` measures. -/
  first : ∃ s, StandsAt nul m 0 s ∧ s.length < off

structure Left (m : Mem) (off : Nat) (t : Str) (siz : Nat) : Prop where
  size : siz = t.length
  holds : t ≠ [] → StandsAt nul m off t ∧ off + t.length < w.bufsiz
  blank : w.Blank m (off + t.length)

section
variable {w : ArenaWorld} {m m' : Mem} {off n siz : Nat} {s t : Str} {path program : Str} {ps : List Placed} {l : ArenaLoader}

theorem Ready.frame (h : w.Ready m off ps) (hf : Frame m m' off) : w.Ready m' off ps := by
  obtain ⟨s, hs, hlt⟩ := h.first
  exact ⟨h.laid.frame hf, h.le, s, hs.frame hf (by omega), hlt⟩

theorem Ready.snoc (h : w.Ready m off ps) (hf : Frame m m' off) (hs : StandsAt nul m' off s) (hlt : off + s.length < w.bufsiz) :
    w.Ready m' (off + (s.length + 1)) (ps ++ [(off, s)]) := by
  obtain ⟨s', hs', hlt'⟩ := (h.frame hf).first
  exact ⟨(h.frame hf).laid.snoc hs, by omega, s', hs', by omega⟩

theorem Blank.mono {i j : Nat} (h : w.Blank m i) (hij : i ≤ j) : w.Blank m j := fun k hk hkb => h k (by omega) hkb

theorem Blank.stands (h : w.Blank m off) (hlt : off < w.bufsiz) : StandsAt nul m off [] :=
  ⟨by simp, by simp, h off (Nat.le_refl _) hlt⟩

/-! ## Lists -/

theorem addPaths_does (paths : List CText) (hd : StandsAt nul m off t) (hb : w.Blank m (off + t.length))
    (hlt : off + t.length < w.bufsiz) :
    Does (w.addPaths off (w.bufsiz - off) paths) m True
      (paths.foldlM (fun s p => pathStrncat s p.1 (w.bufsiz - off)) t) (Frame m · off)
      fun s _ m' => StandsAt nul m' off s ∧ w.Blank m' (off + s.length) ∧ off + s.length < w.bufsiz := by
  induction paths generalizing m t with
  | nil => exact Does.ret trivial (Frame.refl m off) ⟨hd, hb, hlt⟩
  | cons p ps ih =>
    rw [addPaths, List.foldlM_cons]
    have hone : Does (w.pathStrncatTo off (w.bufsiz - off) p.1) m True (pathStrncat t p.1 (w.bufsiz - off)) (Frame m · off)
        fun s _ m' => StandsAt nul m' off s ∧ w.Blank m' (off + s.length) ∧ off + s.length < w.bufsiz := by
      refine ⟨fun h => absurd trivial h, fun _ s hs => ?_, fun _ e he => ?_⟩
      · obtain ⟨m', hx, hd', hb', hlt', hf⟩ := pathStrncatTo_ok hd hb hlt p.2 hs
        exact ⟨(), m', hx, hf, hd', hb', hlt'⟩
      · exact ⟨m, pathStrncatTo_fail hd hlt he, Frame.refl m off⟩
    have hseq := hone.bind (f := fun _ => w.addPaths off (w.bufsiz - off) ps) (R := fun _ => True)
      (U := fun s => ps.foldlM (fun s p => pathStrncat s p.1 (w.bufsiz - off)) s) fun s _ m' _ hf hs =>
        (ih hs.1 hs.2.1 hs.2.2).mono Iff.rfl (fun _ hf' => hf.trans hf') fun _ _ _ _ _ h => h
    exact hseq.mono (by simp) (fun _ h => h) fun _ _ _ _ _ h => h

theorem adds_does (a : Adds) (hd : StandsAt nul m off t) (hb : w.Blank m (off + t.length)) (hlt : off + t.length < w.bufsiz) :
    Does (w.adds off (w.bufsiz - off) a) m True (addsText t (w.bufsiz - off) a) (Frame m · off)
      fun s _ m' => StandsAt nul m' off s ∧ w.Blank m' (off + s.length) ∧ off + s.length < w.bufsiz := by
  have hend : ∀ s, ∀ m', Frame m m' off → (StandsAt nul m' off s ∧ w.Blank m' (off + s.length) ∧ off + s.length < w.bufsiz) →
      Does (Making.ofExcept a.ends) m' True (do a.ends; pure s) (Frame m · off)
        fun s _ m' => StandsAt nul m' off s ∧ w.Blank m' (off + s.length) ∧ off + s.length < w.bufsiz := by
    intro s m' hf hs
    have h := (Does.ofExcept a.ends (K := (Frame m · off)) hf).bind (f := fun _ => (pure () : Making Errno Mem Unit))
      (R := fun _ => True) (U := fun _ => pure s) (Q := fun s _ m' => StandsAt nul m' off s ∧
        w.Blank m' (off + s.length) ∧ off + s.length < w.bufsiz) ?_
    · refine (h.mono (by simp) (fun _ h => h) fun _ _ _ _ _ h => h).of_eq ?_
      cases a.ends <;> rfl
    · rintro _ _ _ - - ⟨-, rfl⟩
      exact Does.ret trivial hf hs
  have h := (addPaths_does a.paths hd hb hlt).bind fun s _ m' _ hf hs => hend s m' hf hs
  exact h.mono (by simp) (fun _ h => h) fun _ _ _ _ _ h => h

/-! ## What each producer leaves -/

theorem strnlenOf_left (hd : StandsAt nul m off t) (hb : w.Blank m (off + t.length)) (hlt : off + t.length < w.bufsiz) :
    ∃ siz, strnlenOf off (w.bufsiz - off) m = .ok siz m ∧ w.Left m off t siz :=
  ⟨t.length, strnlenOf_stands hd (by omega), rfl, fun _ => ⟨hd, hlt⟩, hb⟩

theorem addsSize_does (a : Adds) (hd : StandsAt nul m off t) (hb : w.Blank m (off + t.length)) (hlt : off + t.length < w.bufsiz) :
    Does (do w.adds off (w.bufsiz - off) a; strnlenOf off (w.bufsiz - off)) m True (addsText t (w.bufsiz - off) a)
      (Frame m · off) fun t siz m' => w.Left m' off t siz :=
  (adds_does a hd hb hlt).bind_read fun _ _ _ _ _ h => strnlenOf_left h.1 h.2.1 h.2.2

theorem ldPreload_does (h : w.Ready m off ps) : Does (w.ldPreload l off) m (w.PreloadRoom l off) (w.preloadText l off)
    (Frame m · off) fun t siz m' => w.Left m' off t siz := by
  have hlib := Does.ofExcept (l.lib (w.bufsiz - off)) (K := (Frame m · off)) (Frame.refl m off)
  refine ((hlib.bind (R := fun _ => off < w.bufsiz) ?_).mono ?_ (fun _ h => h) fun _ _ _ _ _ h => h).of_eq
    (bind_ok (room_ok h.le))
  · intro lib a m' _ _ ha
    rw [ha.1, ha.2]
    by_cases hoff : off < w.bufsiz
    · obtain ⟨m₁, hcpy, hs, hb, hf⟩ := strncpyTo_ok (m := m) lib.2 hoff
      have hlt : (strncpy lib.1 (w.bufsiz - off)).length < w.bufsiz - off := length_strncpy_lt (by omega)
      obtain ⟨s, hfirst, hslt⟩ := (h.frame hf).first
      have hle := h.le
      refine ((addsSize_does (l.preload (strncpy lib.1 (w.bufsiz - off))) hs hb (by omega)).mono (by simp [hoff])
        (fun _ h => hf.trans h) fun _ _ _ _ _ h => h).of_eq ?_
      rw [bind_ok hcpy, bind_ok (strnlenOf_stands hfirst (by omega)), bind_ok (textAt_stands hs (by omega))]
    · have hn : w.bufsiz - off = 0 := by omega
      refine ⟨fun _ => bind_fault ?_, fun hr => absurd hr hoff, fun hr => absurd hr hoff⟩
      rw [hn, strncpyTo_full]
  · simp [PreloadRoom]

theorem ldLibraryPath_does (h : w.Ready m off ps) (hb : w.Blank m off) :
    Does (w.ldLibraryPath l off) m (w.LibraryRoom l off) (addsText [] (w.bufsiz - off) l.libraryPath) (Frame m · off)
      fun t siz m' => w.Left m' off t siz := by
  by_cases hoff : off < w.bufsiz
  · refine ((addsSize_does l.libraryPath (hb.stands hoff) hb (by simpa using hoff)).mono ?_ (fun _ h => h)
      fun _ _ _ _ _ h => h).of_eq (bind_ok (room_ok h.le))
    simp [LibraryRoom, hoff]
  · have hn : w.bufsiz - off = 0 := by omega
    rw [hn]
    have hx : w.ldLibraryPath l off m = (w.adds off 0 l.libraryPath >>= fun _ => strnlenOf off 0) m := by
      rw [ldLibraryPath, bind_ok (room_ok h.le), hn]
    refine Does.of_eq ?_ hx
    by_cases hp : l.libraryPath.paths = []
    · have hread : w.adds off 0 l.libraryPath = Making.ofExcept l.libraryPath.ends := by
        rw [adds, hp]
        rfl
      have htext : addsText [] 0 l.libraryPath = (do l.libraryPath.ends; pure []) := by
        rw [addsText, hp]
        rfl
      rw [hread, htext]
      have hends := Does.ofExcept l.libraryPath.ends (K := (Frame m · off)) (Frame.refl m off)
      refine (hends.bind (R := fun _ => True) (U := fun _ => .ok []) ?_).mono ?_ (fun _ h => h) fun _ _ _ _ _ h => h
      · intro _ _ m' _ hf ha
        have hle := h.le
        refine ⟨fun hr => absurd trivial hr, fun _ t ht => ⟨0, m', rfl, hf, ?_⟩, fun _ e he => by simp at he⟩
        rw [← Except.ok.inj ht]
        exact ⟨rfl, fun hne => absurd rfl hne, fun k hk hkb => by simp at hk; omega⟩
      · simp [LibraryRoom, hp]
    · obtain ⟨p, ps, hps⟩ := List.exists_cons_of_ne_nil hp
      have hroom : ¬ w.LibraryRoom l off := fun hr => hoff (hr hp)
      refine ⟨fun _ => bind_fault ?_, fun hr => absurd hr hroom, fun hr => absurd hr hroom⟩
      have htext : w.textAt off m = .fault := by
        rw [textAt, hn]
        rfl
      rw [adds, hps]
      exact bind_fault (bind_fault (bind_fault htext))

theorem inhibitRpath_does (h : w.Ready m off ps) (value : CText) : Does (w.inhibitRpath value.1 off) m (off < w.bufsiz)
    (.ok (strncpy value.1 (w.bufsiz - off))) (Frame m · off) fun t siz m' => w.Left m' off t siz := by
  by_cases hoff : off < w.bufsiz
  · obtain ⟨m₁, hcpy, hs, hb, hf⟩ := strncpyTo_ok (m := m) value.2 hoff
    have hlt : (strncpy value.1 (w.bufsiz - off)).length < w.bufsiz - off := length_strncpy_lt (by omega)
    obtain ⟨siz, hsiz, hleft⟩ := strnlenOf_left hs hb (by omega)
    refine ⟨fun hr => absurd hoff hr, fun _ t ht => ⟨siz, m₁, ?_, hf, Except.ok.inj ht ▸ hleft⟩, fun _ e he => by simp at he⟩
    rw [inhibitRpath, bind_ok (room_ok h.le), bind_ok hcpy, hsiz]
  · have hn : w.bufsiz - off = 0 := by omega
    refine ⟨fun _ => ?_, fun hr => absurd hr hoff, fun hr => absurd hr hoff⟩
    rw [inhibitRpath, bind_ok (room_ok h.le), hn, bind_fault strncpyTo_full]

theorem keep_left (h : w.Ready m off ps) (hf : Frame m m' off) (ht : w.Left m' off t siz) :
    ∃ r, w.keep ps off siz m' = .ok r m' ∧ r.2 = after off t ∧ w.Ready m' r.2 r.1 ∧ w.Blank m' r.2 := by
  by_cases hne : t = []
  · have hsiz : siz = 0 := by rw [ht.size, hne, List.length_nil]
    have hb := ht.blank
    rw [hne] at hb
    refine ⟨(ps, off), ?_, ?_, h.frame hf, hb⟩
    · rw [keep, if_neg (by omega)]
      rfl
    · rw [after, if_pos hne]
  · obtain ⟨hs, hlt⟩ := ht.holds hne
    have hsiz : 0 < siz := by
      rw [ht.size]
      exact List.length_pos_of_ne_nil hne
    refine ⟨(ps ++ [(off, t)], off + (t.length + 1)), ?_, ?_, h.snoc hf hs hlt, ht.blank.mono (by dsimp only; omega)⟩
    · rw [keep, if_pos hsiz, bind_ok (textAt_stands hs hlt), ht.size]
      rfl
    · rw [after, if_neg hne]

theorem keeping_does {x : Nat → Making Errno Mem Nat} {room : Prop} {T : Except Errno Str} (h : w.Ready m off ps)
    (hx : Does (x off) m room T (Frame m · off) fun t siz m' => w.Left m' off t siz) :
    Does (w.keeping x ps off) m room T (Frame m · off)
      fun t r m' => r.2 = after off t ∧ w.Ready m' r.2 r.1 ∧ w.Blank m' r.2 :=
  hx.bind_read fun _ _ _ _ hf ht => keep_left h hf ht

theorem place_does (hlaid : Laid nul m off ps) (hle : off ≤ w.bufsiz) (path : Str) :
    Does (w.place ps off path) m (w.PlaceRoom off path) (w.placeText off path) (Frame m · off)
      fun t r m' => r.1 = t ∧ r.2.2 = off + (t.length + 1) ∧ r.2.2 ≤ w.bufsiz ∧ StandsAt nul m' off t ∧
        Laid nul m' r.2.2 r.2.1 := by
  by_cases hoff : off < w.bufsiz
  · rw [placeText, if_pos hoff]
    cases hr : w.resolve path (w.bufsiz - off) with
    | error e =>
      refine ⟨fun hn => absurd (Or.inl hoff) hn, fun _ t ht => by simp [Except.map] at ht, fun _ e' he => ⟨m, ?_, Frame.refl m off⟩⟩
      have he' : e = e' := by simpa [Except.map] using he
      have hx : w.resolveTo off path m = .fail e' m := by
        rw [resolveTo, bind_ok (room_ok hle), if_neg (by omega), hr, ← he']
        rfl
      exact bind_fail hx
    | ok r =>
      have hfits := w.resolve_fits hr
      refine ⟨fun hn => absurd (Or.inl hoff) hn, fun _ t ht => ?_, fun _ e he => by simp [Except.map] at he⟩
      obtain rfl : r.1 = t := by simpa [Except.map] using ht
      have hs : StandsAt nul (clobber (store m off (r.1 ++ [nul])) (off + (r.1.length + 1)) (off + (w.bufsiz - off))) off r.1 :=
        (standsAt_store r.2).frame (frame_clobber (Nat.le_refl _)) (by omega)
      have hf : Frame m (clobber (store m off (r.1 ++ [nul])) (off + (r.1.length + 1)) (off + (w.bufsiz - off))) off :=
        (frame_store (Nat.le_refl off)).trans (frame_clobber (by omega))
      refine ⟨(r.1, ps ++ [(off, r.1)], off + (r.1.length + 1)), _, ?_, hf, rfl, rfl, by dsimp only; omega, hs,
        (hlaid.frame hf).snoc hs⟩
      rw [place, bind_ok (a := r.1.length) ?_, bind_ok (textAt_stands hs (by omega))]
      · rfl
      · rw [resolveTo, bind_ok (room_ok hle), if_neg (by omega), hr]
        exact bind_ok (write_ok (by rw [List.length_append, List.length_singleton]; omega))
  · have hn : w.bufsiz - off = 0 := by omega
    have hx : w.resolveTo off path m = (w.spares path).elim Making.fault fail m := by
      rw [resolveTo, bind_ok (room_ok hle), hn, if_pos rfl]
    rw [placeText, if_neg hoff]
    cases hsp : w.spares path with
    | none =>
      have hroom : ¬ w.PlaceRoom off path := by simp [PlaceRoom, hoff, hsp]
      refine ⟨fun _ => bind_fault ?_, fun hr => absurd hr hroom, fun hr => absurd hr hroom⟩
      rw [hx, hsp]
      rfl
    | some e =>
      refine ⟨fun hr => absurd (Or.inr ⟨e, hsp⟩) hr, fun _ t ht => by simp at ht, fun _ e' he => ⟨m, ?_, Frame.refl m off⟩⟩
      obtain rfl : e = e' := by simpa using he
      exact bind_fail (by rw [hx, hsp]; rfl)

theorem place_ready (h : w.Ready m off ps) (path : Str) :
    Does (w.place ps off path) m (w.PlaceRoom off path) (w.placeText off path) (Frame m · off)
      fun t r m' => r.1 = t ∧ r.2.2 = off + (t.length + 1) ∧ w.Ready m' r.2.2 r.2.1 :=
  (place_does h.laid h.le path).mono Iff.rfl (fun _ hf => hf) fun _ r m' _ hf hr => by
    obtain ⟨s, hs, hlt⟩ := (h.frame hf).first
    refine ⟨hr.1, hr.2.1, hr.2.2.2.2, hr.2.2.1, s, hs, ?_⟩
    rw [hr.2.1]
    omega

/-! ## Scripts -/

theorem nul_not_mem_takeWhile_inWord (s : Str) : nul ∉ s.takeWhile inWord := by
  intro hm
  have h := List.mem_takeWhile_imp hm
  simp [inWord] at h

theorem nul_not_mem_hashbangWords (s : Str) :
    nul ∉ (hashbangWords s).1 ∧ ∀ a, (hashbangWords s).2 = some a → nul ∉ a := by
  refine ⟨nul_not_mem_takeWhile_inWord _, fun a ha => ?_⟩
  unfold hashbangWords at ha
  dsimp only at ha
  split at ha
  · rw [← Option.some.inj ha]
    exact nul_not_mem_takeWhile_inWord _
  · simp at ha

/-- The words are copied in place: they are no longer than what they are read from. -/
theorem hashbangSize_hashbangWords (s : Str) : hashbangSize (hashbangWords s) ≤ s.length := by
  have hskip : (s.dropWhile isBlank).length ≤ s.length := (List.dropWhile_sublist _).length_le
  unfold hashbangSize hashbangWords
  dsimp only
  generalize s.dropWhile isBlank = u at hskip ⊢
  have hword : (u.takeWhile inWord).length + (u.dropWhile inWord).length = u.length := by
    rw [← List.length_append, List.takeWhile_append_dropWhile]
  cases hrest : u.dropWhile inWord with
  | nil =>
    rw [hrest] at hword
    simp at hword ⊢
    omega
  | cons c rest =>
    rw [hrest, List.length_cons] at hword
    by_cases hc : isBlank c = true
    · have harg : (((c :: rest).dropWhile isBlank).takeWhile inWord).length ≤ rest.length := by
        rw [List.dropWhile_cons_of_pos hc]
        exact (List.takeWhile_sublist _).length_le.trans (List.dropWhile_sublist _).length_le
      simp [hc] at harg ⊢
      omega
    · simp [hc]
      omega

theorem snprintfTo_fits (h : s.length < n) :
    w.snprintfTo off n s = (do w.write off (s ++ [nul]); pure s.length) := by
  have hcpy : strncpy s n = s := by
    rw [strncpy, List.take_of_length_le (by omega)]
  rw [snprintfTo, if_neg (by omega), hcpy, if_pos h]

theorem copyWords_ok {r : Str × Option Str} (hr : nul ∉ r.1) (ha : ∀ a, r.2 = some a → nul ∉ a)
    (hlt : off + hashbangSize r < w.bufsiz) : ∃ m',
      (do
        w.write off (r.1 ++ [nul])
        r.2.elim (pure ()) fun a => w.write (off + (r.1.length + 1)) (a ++ [nul])
        pure (hashbangSize r)) m = .ok (hashbangSize r) m' ∧
      Frame m m' off ∧ StandsAt nul m' off r.1 ∧ ∀ a, r.2 = some a → StandsAt nul m' (off + (r.1.length + 1)) a := by
  obtain ⟨word, arg⟩ := r
  have hf : Frame m (store m off (word ++ [nul])) off := frame_store (Nat.le_refl off)
  have hs : StandsAt nul (store m off (word ++ [nul])) off word := standsAt_store hr
  cases arg with
  | none =>
    refine ⟨_, bind_ok (write_ok ?_), hf, hs, by simp⟩
    simp [hashbangSize] at hlt ⊢
    omega
  | some a =>
    refine ⟨store (store m off (word ++ [nul])) (off + (word.length + 1)) (a ++ [nul]), ?_, hf.trans (frame_store (by omega)),
      hs.frame (frame_store (Nat.le_refl _)) (by omega), fun b hb => ?_⟩
    · simp [hashbangSize] at hlt
      rw [bind_ok (write_ok (by simp; omega))]
      exact bind_ok (write_ok (by simp; omega))
    · rw [← Option.some.inj hb]
      exact standsAt_store (ha a rfl)

theorem interpreterScriptHashbang_does (hle : off ≤ w.bufsiz) :
    Does (w.interpreterScriptHashbang program off) m (w.ScriptRoom program off) (w.hashbangText program off) (Frame m · off)
      fun r siz m' => siz = hashbangSize r ∧ off + siz < w.bufsiz ∧ StandsAt nul m' off r.1 ∧
        ∀ a, r.2 = some a → StandsAt nul m' (off + (r.1.length + 1)) a := by
  have hfile := Does.ofExcept (w.file program) (K := (Frame m · off)) (Frame.refl m off)
  refine (hfile.bind (R := fun f => if f.1 = 0 then off + pathBshell.length < w.bufsiz else off < w.bufsiz)
    ?_).mono (by simp [ScriptRoom]) (fun _ h => h) fun _ _ _ _ _ h => h
  intro f a m' _ _ ha
  rw [ha.1, ha.2]
  by_cases hsize : f.1 = 0
  · rw [if_pos hsize, if_pos hsize, if_pos hsize, snprintfTo_fits w.bshell_fits]
    by_cases hoff : off + pathBshell.length < w.bufsiz
    · refine Does.of_eq (y := pure pathBshell.length) ?_ (bind_ok (write_ok ?_))
      · exact Does.ret hoff (frame_store (Nat.le_refl off)) ⟨rfl, hoff, standsAt_store (by decide), by simp⟩
      · rw [List.length_append, List.length_singleton]
        omega
    · refine ⟨fun _ => bind_fault (if_neg ?_), fun hr => absurd hr hoff, fun hr => absurd hr hoff⟩
      rw [List.length_append, List.length_singleton]
      omega
  · rw [if_neg hsize, if_neg hsize, if_neg hsize]
    refine Does.of_eq ?_ (bind_ok (room_ok hle))
    by_cases hoff : off < w.bufsiz
    · rw [if_neg (by omega)]
      have htext : (f.2.take (w.bufsiz - off - 1)).length ≤ w.bufsiz - off - 1 := List.length_take_le _ _
      generalize f.2.take (w.bufsiz - off - 1) = text at htext
      refine Does.of_eq ?_ (bind_ok (write_ok (by rw [List.length_append, List.length_singleton]; omega)))
      by_cases hmag : text.length < 2 ∨ text.take 2 ≠ scriptMag
      · rw [if_pos hmag, if_pos hmag]
        exact Does.error hoff (frame_store (Nat.le_refl off))
      · rw [if_neg hmag, if_neg hmag]
        have hsiz := hashbangSize_hashbangWords (text.drop 2)
        rw [List.length_drop] at hsiz
        obtain ⟨hnul, hnul'⟩ := nul_not_mem_hashbangWords (text.drop 2)
        obtain ⟨m₂, hx, hf, hs, ha⟩ := copyWords_ok (m := store m off (text ++ [nul])) hnul hnul'
          (show off + hashbangSize (hashbangWords (text.drop 2)) < w.bufsiz by omega)
        refine Does.of_eq (y := pure (hashbangSize (hashbangWords (text.drop 2)))) (k := m₂) ?_ hx
        exact Does.ret hoff ((frame_store (Nat.le_refl off)).trans hf) ⟨rfl, by omega, hs, ha⟩
    · rw [if_pos (by omega)]
      exact ⟨fun _ => rfl, fun hr => absurd hr hoff, fun hr => absurd hr hoff⟩

theorem scriptWords_ok (h : w.Ready m off ps) (hf : Frame m m' off) {r : Str × Option Str} (hlt : off + hashbangSize r < w.bufsiz)
    (hs : StandsAt nul m' off r.1) (ha : ∀ a, r.2 = some a → StandsAt nul m' (off + (r.1.length + 1)) a) :
    ∃ b, (do
        let hashbang ← w.textAt off
        let len ← strnlenOf off (w.bufsiz - off)
        let ps := ps ++ [(off, hashbang)]
        let off := off + (len + 1)
        if len < hashbangSize r then do
          let arg ← w.textAt off
          if arg = [] then pure (hashbang, ps, off)
          else pure (hashbang, ps ++ [(off, arg)], off + (arg.length + 1))
        else pure (hashbang, ps, off)) m' = .ok b m' ∧
      b.1 = r.1 ∧ b.2.2 = scriptEnd off (r.1, r.2.filter (· ≠ [])) ∧ w.Ready m' b.2.2 b.2.1 := by
  obtain ⟨word, arg⟩ := r
  have hword : off + word.length < w.bufsiz := by
    simp [hashbangSize] at hlt
    omega
  dsimp only at hs ha
  have h1 : w.Ready m' (off + (word.length + 1)) (ps ++ [(off, word)]) := h.snoc hf hs hword
  rw [bind_ok (textAt_stands hs hword), bind_ok (strnlenOf_stands hs (by omega))]
  cases arg with
  | none => exact ⟨(word, ps ++ [(off, word)], off + (word.length + 1)), by simp [hashbangSize]; rfl, rfl, rfl, h1⟩
  | some a =>
    have hlt' : off + (word.length + 1) + a.length < w.bufsiz := by
      simp [hashbangSize] at hlt
      omega
    dsimp only
    rw [if_pos (by simp [hashbangSize]), bind_ok (textAt_stands (ha a rfl) hlt')]
    by_cases hne : a = []
    · rw [if_pos hne]
      exact ⟨(word, ps ++ [(off, word)], off + (word.length + 1)), rfl, rfl, by simp [scriptEnd, Option.filter_some, hne], h1⟩
    · rw [if_neg hne]
      refine ⟨(word, _, off + (word.length + 1) + (a.length + 1)), rfl, rfl, by simp [scriptEnd, Option.filter_some, hne], ?_⟩
      exact h1.snoc (Frame.refl m' _) (ha a rfl) hlt'

theorem interpreterScript_does (h : w.Ready m off ps) :
    Does (w.interpreterScript ps program off) m (w.ScriptRoom program off) (w.scriptText program off) (Frame m · off)
      fun t r m' => r.1 = t.1 ∧ r.2.2 = scriptEnd off t ∧ w.Ready m' r.2.2 r.2.1 := by
  refine ((interpreterScriptHashbang_does h.le).bind (R := fun _ => True) ?_).mono (by simp) (fun _ h => h)
    fun _ _ _ _ _ h => h
  intro r siz m' _ hf hr
  obtain ⟨rfl, hlt, hs, ha⟩ := hr
  by_cases hsiz : hashbangSize r < 1
  · rw [if_pos hsiz, if_pos hsiz]
    exact Does.error trivial hf
  · rw [if_neg hsiz, if_neg hsiz]
    obtain ⟨b, hx, hb⟩ := scriptWords_ok h hf hlt hs ha
    exact Does.of_eq (y := pure b) (Does.ret trivial hf hb) hx

/-! ## `__ldso` -/

theorem placeInterp_safe_iff (h : w.Ready m off ps) :
    Safe (w.placeInterp l ps off) m (fun ps' m' => Laid nul m' w.bufsiz ps') ↔ w.PlaceRoom off l.ptInterp := by
  refine ((place_ready h l.ptInterp).bind_iff (R := fun _ => True) fun t r m' _ _ hr => ?_).trans (by simp)
  exact iff_of_true (hr.2.2.laid.mono hr.2.2.le) trivial

theorem placeInhibit_does (h : w.Ready m off ps) : Does (w.placeInhibit l ps off) m (w.InhibitRoom l off)
    (.ok ()) (Frame m · off) fun _ r m' => r.2 = w.inhibitEnd l off ∧ w.Ready m' r.2 r.1 := by
  unfold placeInhibit InhibitRoom inhibitEnd
  cases l.inhibitRpath with
  | none => exact Does.ret (by simp) (Frame.refl m off) ⟨rfl, h⟩
  | some value =>
    have hx := keeping_does h (inhibitRpath_does h value)
    refine ⟨fun hn => hx.full fun hr => hn fun _ _ => hr, fun hr _ _ => ?_, fun _ e he => by simp at he⟩
    obtain ⟨r, m', hok, hf, hend, h1, -⟩ := hx.done (hr value rfl) _ rfl
    exact ⟨r, m', hok, hf, hend, h1⟩

theorem ldso_safe_iff (h : w.Ready m off ps) :
    Safe (w.ldso l ps off) m (fun ps' m' => Laid nul m' w.bufsiz ps') ↔ w.LdsoRoom l off := by
  refine (keeping_does h (ldPreload_does h)).bind_iff fun preload r m₁ _ _ hr => ?_
  obtain ⟨ps₁, off₁⟩ := r
  obtain ⟨rfl, h1, hb1⟩ := hr
  refine (keeping_does h1 (ldLibraryPath_does h1 hb1)).bind_iff fun list r m₂ _ _ hr => ?_
  obtain ⟨ps₂, off₂⟩ := r
  obtain ⟨rfl, h2, -⟩ := hr
  refine ((placeInhibit_does h2).bind_iff
    (R := fun _ => w.PlaceRoom (w.inhibitEnd l (after (after off preload) list)) l.ptInterp) fun _ r m₃ _ _ hr => ?_).trans
    (by simp)
  obtain ⟨ps₃, off₃⟩ := r
  obtain ⟨rfl, h3⟩ := hr
  exact placeInterp_safe_iff h3

/-! ## `execve` -/

section
variable {α β τ : Type} {x : Making Errno Mem α} {e : Errno}

def orNoneText (e : Errno) : Except Errno α → Except Errno (Option α)
  | .ok a => .ok (some a)
  | .error e' => if e' = e then .ok none else .error e'

theorem orNone_does {room : Prop} {T : Except Errno τ} {K : Mem → Prop} {P : τ → α → Mem → Prop} (h : Does x m room T K P) :
    Does (orNone e x) m room (orNoneText e T) K fun t a m' => Option.Rel (fun t a => P t a m') t a where
  full hr := by rw [orNone, h.full hr]
  done hr t ht := by
    cases hT : T with
    | ok t' =>
      obtain ⟨a, m', hx, hk, hp⟩ := h.done hr t' hT
      rw [hT] at ht
      rw [← Except.ok.inj ht, orNone, hx]
      exact ⟨some a, m', rfl, hk, .some hp⟩
    | error e' =>
      obtain ⟨m', hx, hk⟩ := h.stops hr e' hT
      rw [hT, orNoneText] at ht
      by_cases he : e' = e
      · rw [if_pos he] at ht
        rw [← Except.ok.inj ht, orNone, hx]
        exact ⟨none, m', if_pos he, hk, .none⟩
      · rw [if_neg he] at ht
        simp at ht
  stops hr e₁ h₁ := by
    cases hT : T with
    | ok t' =>
      rw [hT] at h₁
      simp [orNoneText] at h₁
    | error e' =>
      obtain ⟨m', hx, hk⟩ := h.stops hr e' hT
      rw [hT, orNoneText] at h₁
      by_cases he : e' = e
      · rw [if_pos he] at h₁
        simp at h₁
      · rw [if_neg he] at h₁
        rw [orNone, hx, ← Except.error.inj h₁]
        exact ⟨m', if_neg he, hk⟩

theorem orNone_safe_iff {f : Option α → Making Errno Mem β} {Q : β → Mem → Prop} {P : α → Mem → Prop}
    (hnone : ∀ m', Safe (f none) m' Q) (hsome : ∀ a m', Safe (f (some a)) m' Q ↔ P a m') :
    Safe (orNone e x >>= f) m Q ↔ Safe x m P := by
  cases hx : x m with
  | ok a m' =>
    have ho : orNone e x m = .ok (some a) m' := by rw [orNone, hx]
    have h := hsome a m'
    unfold Safe at h ⊢
    rw [bind_ok ho, hx]
    exact h
  | fail e' m' =>
    have hs : Safe x m P := by simp [Safe, hx]
    refine iff_of_true ?_ hs
    by_cases he : e' = e
    · have ho : orNone e x m = .ok none m' := by rw [orNone, hx]; exact if_pos he
      have h := hnone m'
      unfold Safe at h ⊢
      rwa [bind_ok ho]
    · have ho : orNone e x m = .fail e' m' := by rw [orNone, hx]; exact if_neg he
      unfold Safe
      rw [bind_fail ho]
      trivial
  | fault =>
    have ho : orNone e x m = .fault := by rw [orNone, hx]
    unfold Safe
    rw [bind_fault ho, hx]

end

theorem runExecSh_safe (m : Mem) : Safe w.runExecSh m fun ps' m' => Laid nul m' w.bufsiz ps' := by
  have hpos : 0 < w.bufsiz := Nat.zero_lt_of_lt w.bshell_fits
  have hexec := Does.ofExcept w.execSh (K := fun _ => True) (m := m) trivial
  refine (hexec.bind_iff (R := fun _ => True) fun exec a m' _ _ ha => ?_).mpr (by simp)
  rw [ha.1, ha.2]
  refine iff_of_true ?_ trivial
  obtain ⟨m₁, hcpy, hs, -, -⟩ := strncpyTo_ok (m := m) exec.2 hpos
  have hlt : (strncpy exec.1 (w.bufsiz - 0)).length < w.bufsiz - 0 := length_strncpy_lt hpos
  rw [Nat.sub_zero] at hcpy
  unfold Safe
  rw [bind_ok hcpy, bind_ok (textAt_stands hs (by omega))]
  have hlaid := (Laid.nil (z := nul) m₁ 0).snoc hs
  exact hlaid.mono (by omega)

theorem runLoader_safe_iff (h : w.Ready m off ps) :
    Safe (w.runLoader path program ps off) m (fun ps' m' => Laid nul m' w.bufsiz ps') ↔ w.LoaderRoom path program off := by
  unfold runLoader LoaderRoom
  by_cases hl : w.isLdso (basename path) = true
  · rw [if_pos hl]
    have hexec := orNone_does (e := .EAGAIN) (Does.ofExcept w.ldsoExecve (K := (· = m)) rfl)
    refine (hexec.bind_iff (R := fun _ => True) fun _ _ m' _ hm _ => ?_).trans (by simp [hl])
    rw [hm]
    exact iff_of_true (h.laid.mono h.le) trivial
  · rw [if_neg hl]
    refine (orNone_safe_iff (P := fun ps' m' => Laid nul m' w.bufsiz ps') runExecSh_safe fun ps' m' => Iff.rfl).trans ?_
    refine ((Does.ofExcept (w.loader program) (K := (· = m)) rfl).bind_iff (R := fun l => w.LdsoRoom l off) fun l l' m' _ hm hl' => ?_).trans ?_
    · rw [hm, hl'.1]
      exact ldso_safe_iff h
    · simp [hl]

theorem runProgram_safe_iff (h : w.Ready m off ps) :
    Safe (w.runProgram path program ps off) m (fun ps' m' => Laid nul m' w.bufsiz ps') ↔ w.ProgramRoom path program off := by
  refine ((orNone_does (e := .ENOEXEC) (interpreterScript_does h)).bind_iff (R := fun t => t.elim
    (w.LoaderRoom path program off) fun script => w.PlaceRoom (scriptEnd off script) script.1 ∧
      ∀ interp, w.placeText (scriptEnd off script) script.1 = .ok interp →
        w.LoaderRoom path interp (scriptEnd off script + (interp.length + 1))) fun t a m' _ hf hr => ?_).trans ?_
  · cases hr with
    | none => exact runLoader_safe_iff (h.frame hf)
    | @some script b hb =>
      obtain ⟨hashbang, ps₁, off₁⟩ := b
      obtain ⟨rfl, rfl, h1⟩ := hb
      refine (place_ready h1 script.1).bind_iff fun interp b m₂ _ _ hr => ?_
      obtain ⟨interp', ps₂, off₂⟩ := b
      dsimp only at hr
      obtain ⟨rfl, rfl, h2⟩ := hr
      exact runLoader_safe_iff h2
  · unfold ProgramRoom
    refine and_congr_right fun _ => ⟨fun h => ⟨fun hs => h none (by rw [hs]; rfl), fun script hs => h (some script) (by rw [hs]; rfl)⟩,
      fun h t ht => ?_⟩
    cases hs : w.scriptText program off with
    | ok script =>
      rw [hs] at ht
      rw [← Except.ok.inj ht]
      exact h.2 script hs
    | error e =>
      rw [hs, orNoneText] at ht
      by_cases he : e = .ENOEXEC
      · rw [if_pos he] at ht
        rw [← Except.ok.inj ht]
        exact h.1 (he ▸ hs)
      · rw [if_neg he] at ht
        simp at ht

theorem execve_safe_iff (path : Str) (m : Mem) :
    Safe (w.execve path) m (fun ps m' => Laid nul m' w.bufsiz ps) ↔ w.Roomy path := by
  unfold execve Roomy
  by_cases hi : w.execIgnored path = true
  · rw [if_pos hi]
    exact iff_of_true (runExecSh_safe m) fun h => by simp [hi] at h
  · rw [if_neg hi]
    have hpos : 0 < w.bufsiz := Nat.zero_lt_of_lt w.bshell_fits
    refine ((place_does (Laid.nil m 0) (Nat.zero_le _) path).bind_iff (R := fun program => w.canExec program = .ok true →
      w.inchroot = true → w.ProgramRoom path program (program.length + 1)) fun program r m₁ _ _ hr => ?_).trans ?_
    · obtain ⟨program', ps, off⟩ := r
      dsimp only at hr
      obtain ⟨rfl, rfl, hle, hs, hlaid⟩ := hr
      have h1 : w.Ready m₁ (0 + (program'.length + 1)) ps := ⟨hlaid, hle, program', hs, by omega⟩
      rw [Nat.zero_add] at h1
      refine ((Does.ofExcept (w.canExec program') (K := (· = m₁)) rfl).bind_iff (R := fun b => b = true →
        w.inchroot = true → w.ProgramRoom path program' (program'.length + 1)) fun b b' m' _ hm hb => ?_).trans ?_
      · rw [hm, hb.1]
        cases b with
        | false => exact iff_of_true (runExecSh_safe m₁) (by simp)
        | true =>
          rw [if_neg (by simp)]
          by_cases hc : w.inchroot = true
          · rw [if_neg (by simp [hc]), Nat.zero_add]
            exact (runProgram_safe_iff h1).trans ⟨fun h _ _ => h, fun h => h rfl hc⟩
          · rw [if_pos (by simp [hc])]
            exact iff_of_true (Laid.nil m₁ _) fun _ h => absurd h hc
      · rw [true_and]
        exact ⟨fun h hb => h true hb rfl, fun h b hb hb' => h (hb'.symm ▸ hb)⟩
    · simp [PlaceRoom, hpos, hi]

end

theorem safe_strings_iff (x : Making Errno Mem (List Placed)) (m : Mem) :
    Safe x m (fun ps m' => Laid nul m' w.bufsiz ps) ↔ (∃ e m', x m = .fail e m') ∨
      ∃ ps m', x m = .ok ps m' ∧ (∀ p ∈ ps, StandsAt nul m' p.1 p.2 ∧ p.1 + p.2.length < w.bufsiz) ∧
        ps.Pairwise fun p q => p.1 + p.2.length < q.1 := by
  rw [safe_iff_exists]
  refine or_congr_right ⟨?_, ?_⟩
  · rintro ⟨ps, m', hx, hlaid⟩
    exact ⟨ps, m', hx, fun p h => ⟨hlaid.holds p h, hlaid.below p h⟩, hlaid.apart⟩
  · rintro ⟨ps, m', hx, hp, hapart⟩
    exact ⟨ps, m', hx, fun p h => (hp p h).1, fun p h => (hp p h).2, hapart⟩

/-- Whatever stands in the buffer first: the call fails, or each string that the vector points to stands in the buffer
with its NUL, as it was laid and behind the one before it, when the underlying exec is called; and no access is out of
bounds. That is so exactly when each producer has room. -/
theorem execve_strings (path : Str) (m : Mem) :
    ((∃ e m', w.execve path m = .fail e m') ∨
      ∃ ps m', w.execve path m = .ok ps m' ∧ (∀ p ∈ ps, StandsAt nul m' p.1 p.2 ∧ p.1 + p.2.length < w.bufsiz) ∧
        ps.Pairwise fun p q => p.1 + p.2.length < q.1) ↔ w.Roomy path := by
  rw [← safe_strings_iff]
  exact execve_safe_iff path m

/-! ## A full buffer

With a root directory of 4060 characters, a program of a name of 30 characters and the one library that it needs fill
the buffer to its end, where the library path is added to. -/

def nested (n : Nat) : Loc := List.replicate n ['a']

theorem length_nested (n : Nat) : (render (nested n)).length = 2 * n := by
  induction n with
  | zero => rfl
  | succ n ih =>
    rw [nested, List.replicate_succ, render_cons, List.length_append, ← nested, ih]
    rfl

theorem valid_nested (n : Nat) : ValidLoc (nested n) := fun c hc => by
  rw [List.eq_of_mem_replicate hc]
  decide

def nestedDir : RootDir where
  loc := nested 2030
  valid := valid_nested 2030
  ne_nil := List.cons_ne_nil _ _
  short := by
    rw [length_nested]
    decide

def ctext (s : Str) : CText := ⟨cstr s, fun h => by simpa using List.mem_takeWhile_imp h⟩

theorem ctext_val {s : Str} (h : nul ∉ s) : (ctext s).1 = s :=
  List.takeWhile_eq_self_iff.mpr fun c hc => by simpa using fun hn : c = nul => h (hn ▸ hc)

def hostResolve (h : Host) (env : Option Str) (re : Option (Str → Bool)) (fuel : Nat) (path : Str) (n : Nat) : Except Errno CText :=
  if n = 0 then .error .ENAMETOOLONG
  else
    match pathResolution h env re fuel n 0 none atFdcwd path with
    | .done buf => .ok (ctext buf)
    | .fail e => .error e
    | .fault | .unfinished => .error .ELOOP

theorem hostResolve_fits {h : Host} {env : Option Str} {re : Option (Str → Bool)} {fuel n : Nat} {path : Str} {r : CText}
    (hr : hostResolve h env re fuel path n = .ok r) : r.1.length < n := by
  unfold hostResolve at hr
  by_cases hn : n = 0
  · rw [if_pos hn] at hr
    cases hr
  · rw [if_neg hn] at hr
    cases hp : pathResolution h env re fuel n 0 none atFdcwd path with
    | done buf =>
      rw [hp] at hr
      cases hr
      exact Nat.lt_of_le_of_lt (List.takeWhile_prefix _).length_le (pathResolution2_length (Nat.pos_of_ne_zero hn) hp)
    | fail e | fault | unfinished =>
      rw [hp] at hr
      cases hr

def rootedLoader (root : Str) : ArenaLoader where
  ptInterp := "/lib/ld-musl-x86_64.so.1".toList
  lib _ := .ok (ctext "/usr/lib/libiamroot.so".toList)
  preload _ := ⟨[ctext (root ++ "/lib/libc.so".toList)], .ok ()⟩
  libraryPath := ⟨[ctext (root ++ "/lib".toList)], .ok ()⟩
  inhibitRpath := none

def emptyHost : FileSystem := .ofList [] (by decide)

def rootedWorld (R : RootDir) (fuel : Nat) : ArenaWorld where
  bufsiz := execBufsiz
  resolve := hostResolve (emptyHost.host [] fun _ => none) (some R.path) none fuel
  spares _ := none
  execIgnored _ := false
  canExec _ := .ok true
  inchroot := true
  file _ := .ok (4, elfMagic)
  errno := .ENOENT
  isLdso _ := false
  ldsoExecve := .ok ()
  loader _ := .ok (rootedLoader R.path)
  execSh := .ok (ctext "/usr/lib/exec.sh".toList)
  resolve_fits := hostResolve_fits
  bshell_fits := by decide

def longLoc : Loc := [List.replicate 30 'p', "bin".toList]

def longProgram : Str := pathOf longLoc

section
variable {R : RootDir} {fuel : Nat} (hlen : R.path.length = 4060)

theorem nul_not_mem_path (R : RootDir) : nul ∉ R.path := by
  intro h
  exact nul_not_mem_render R.valid h

include hlen in
theorem length_program : (R.path ++ longProgram).length = 4095 := by
  rw [List.length_append, hlen]
  decide

include hlen in
theorem longLoc_inChroot : InChrootPath emptyHost R none longLoc where
  valid := by decide
  way m _ := by
    refine ⟨rfl, ?_⟩
    cases m with
    | nil => rfl
    | cons c m => rfl
  unlike h := by
    have hle := h.length_le
    rw [hlen] at hle
    exact absurd hle (by decide)
  kept := rfl
  short := by
    show (R.path ++ longProgram).length < pathMax
    rw [length_program hlen]
    decide

include hlen in
theorem longProgram_resolves : Settles (fun fuel => pathResolution (emptyHost.host [] fun _ => none) (some R.path) none
    fuel execBufsiz 0 none atFdcwd longProgram) (.done (R.path ++ longProgram)) := by
  have hpath : pathOf (longLoc ++ R.loc) = R.path ++ longProgram := by
    rw [pathOf_append]
    rfl
  have hset : Settles (fun fuel => pathResolution (emptyHost.host [] fun _ => none) (some R.path) none fuel execBufsiz 0 none
      atFdcwd (pathOf longLoc)) (.done (pathOf (longLoc ++ R.loc))) :=
    pathResolution_plain (longLoc_inChroot hlen) (by decide) (by decide) (by decide) atFdcwd
  rwa [hpath] at hset

theorem ctext_root (R : RootDir) {s : Str} (h : nul ∉ s) : (ctext (R.path ++ s)).1 = R.path ++ s :=
  ctext_val fun hm => (List.mem_append.mp hm).elim (nul_not_mem_path R) h

theorem rootedWorld_program (hfuel : pathResolution (emptyHost.host [] fun _ => none) (some R.path) none fuel execBufsiz 0 none
    atFdcwd longProgram = .done (R.path ++ longProgram)) :
    (rootedWorld R fuel).placeText 0 longProgram = .ok (R.path ++ longProgram) := by
  have hres : (rootedWorld R fuel).resolve longProgram ((rootedWorld R fuel).bufsiz - 0) = .ok (ctext (R.path ++ longProgram)) := by
    show hostResolve _ _ _ fuel longProgram execBufsiz = _
    rw [hostResolve, if_neg (by decide), hfuel]
  rw [placeText, if_pos (show 0 < (rootedWorld R fuel).bufsiz from by show 0 < execBufsiz; decide), hres]
  exact congrArg Except.ok (ctext_root R (by decide))

include hlen in
theorem rootedWorld_preload :
    (rootedWorld R fuel).preloadText (rootedLoader R.path) 4096 =
      .ok (joined "/usr/lib/libiamroot.so".toList (R.path ++ "/lib/libc.so".toList)) := by
  have hval := ctext_root R (s := "/lib/libc.so".toList) (by decide)
  have hcat : pathStrncat "/usr/lib/libiamroot.so".toList (R.path ++ "/lib/libc.so".toList) 4096 =
      .ok (joined "/usr/lib/libiamroot.so".toList (R.path ++ "/lib/libc.so".toList)) := by
    refine pathStrncat_iff.mpr ⟨?_, rfl⟩
    rw [List.length_append, hlen]
    decide
  have hcpy : strncpy "/usr/lib/libiamroot.so".toList 4096 = "/usr/lib/libiamroot.so".toList := by decide
  have hn : (rootedWorld R fuel).bufsiz - 4096 = 4096 := by
    show execBufsiz - 4096 = 4096
    decide
  have hlib : (rootedLoader R.path).lib 4096 = .ok (ctext "/usr/lib/libiamroot.so".toList) := rfl
  have hpre : (rootedLoader R.path).preload "/usr/lib/libiamroot.so".toList = ⟨[ctext (R.path ++ "/lib/libc.so".toList)], .ok ()⟩ := rfl
  unfold preloadText
  rw [hn, hlib]
  show addsText (strncpy (ctext "/usr/lib/libiamroot.so".toList).1 4096) 4096
    ((rootedLoader R.path).preload (strncpy (ctext "/usr/lib/libiamroot.so".toList).1 4096)) = _
  rw [ctext_val (by decide), hcpy, hpre, addsText, List.foldlM_cons, hval, hcat]
  rfl

theorem rootedWorld_script (program : Str) : (rootedWorld R fuel).scriptText program 4096 = .error .ENOEXEC := by
  have htext : (rootedWorld R fuel).hashbangText program 4096 = .error .ENOEXEC := by
    have htake : elfMagic.take (execBufsiz - 4096 - 1) = elfMagic := by decide
    have hfile : (rootedWorld R fuel).file program = .ok (4, elfMagic) := rfl
    have hsize : (rootedWorld R fuel).bufsiz = execBufsiz := rfl
    unfold hashbangText
    rw [hfile, hsize]
    simp only [Bind.bind, Except.bind]
    rw [if_neg (by decide), htake]
    rfl
  rw [scriptText, htext]
  rfl

theorem rootedWorld_full (hlen : R.path.length = 4060) (hfuel : pathResolution (emptyHost.host [] fun _ => none) (some R.path) none fuel
    execBufsiz 0 none atFdcwd longProgram = .done (R.path ++ longProgram)) : ¬ (rootedWorld R fuel).Roomy longProgram := by
  intro h
  have hoff : (R.path ++ longProgram).length + 1 = 4096 := by
    rw [List.length_append, hlen]
    decide
  obtain ⟨-, hloader, -⟩ := h rfl _ (rootedWorld_program hfuel) rfl rfl
  rw [hoff] at hloader
  obtain ⟨-, hlist⟩ := hloader (rootedWorld_script _) rfl (rootedLoader R.path) rfl
  obtain ⟨hroom, -⟩ := hlist _ (rootedWorld_preload hlen)
  have hend : after 4096 (joined "/usr/lib/libiamroot.so".toList (R.path ++ "/lib/libc.so".toList)) = execBufsiz := by
    have hlib : (R.path ++ "/lib/libc.so".toList).length = 4060 + 12 := by
      rw [List.length_append, hlen]
      decide
    rw [after, if_neg (by simp [joined]), joined, if_pos (by simp), List.length_append, hlib]
    decide
  rw [hend] at hroom
  have hlt : execBufsiz < execBufsiz := hroom (List.cons_ne_nil _ _)
  exact absurd hlt (Nat.lt_irrefl _)

theorem rootedWorld_overruns (hlen : R.path.length = 4060) : ∃ fuel,
    hostResolve (emptyHost.host [] fun _ => none) (some R.path) none fuel longProgram execBufsiz = .ok (ctext (R.path ++ longProgram)) ∧
    ∀ m, ¬ ((∃ e m', (rootedWorld R fuel).execve longProgram m = .fail e m') ∨
      ∃ ps m', (rootedWorld R fuel).execve longProgram m = .ok ps m' ∧
        (∀ p ∈ ps, StandsAt nul m' p.1 p.2 ∧ p.1 + p.2.length < (rootedWorld R fuel).bufsiz) ∧
        ps.Pairwise fun p q => p.1 + p.2.length < q.1) := by
  obtain ⟨n, hn⟩ := longProgram_resolves hlen
  refine ⟨n, ?_, fun m => ?_⟩
  · rw [hostResolve, if_neg (by decide), show pathResolution _ _ _ n _ _ _ _ _ = _ from hn 0]
  · rw [← safe_strings_iff, execve_safe_iff]
    exact rootedWorld_full hlen (hn 0)

end

theorem execve_overruns : ∃ fuel,
    hostResolve (emptyHost.host [] fun _ => none) (some nestedDir.path) none fuel longProgram execBufsiz =
      .ok (ctext (nestedDir.path ++ longProgram)) ∧
    ∀ m, ¬ ((∃ e m', (rootedWorld nestedDir fuel).execve longProgram m = .fail e m') ∨
      ∃ ps m', (rootedWorld nestedDir fuel).execve longProgram m = .ok ps m' ∧
        (∀ p ∈ ps, StandsAt nul m' p.1 p.2 ∧ p.1 + p.2.length < (rootedWorld nestedDir fuel).bufsiz) ∧
        ps.Pairwise fun p q => p.1 + p.2.length < q.1) :=
  rootedWorld_overruns (length_nested 2030)

end ArenaWorld

end Iamroot
