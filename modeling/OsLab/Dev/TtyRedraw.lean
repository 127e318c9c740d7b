import OsLab.Dev.TtySwitch

/-! # Partial redraw

`tty_render` draws the marked cells only. On the terminal that is shown this comes to
the same picture as drawing all cells, after any bytes and renders in between. The fields
of `struct sprite` have 16, 4 and 12 bits; on a screen of at most 65535 x 65535
pixels nothing is cut off.
-/

namespace OsLab

open Copy

/-! ## Sprites in their fields -/

/-- A sprite as `struct sprite` holds it. -/
def Sprite.packed (sp : Sprite) : Sprite where
  texture := sp.texture % 2 ^ 16
  x := sp.x % 2 ^ 16
  y := sp.y % 2 ^ 16
  display := sp.display % 2 ^ 4
  z := sp.z % 2 ^ 12

/-- `tty_render`, with the sprites as they are stored. -/
def ttyRenderPacked (showCursor : Bool) (t : Tty) (f : Fb) : Tty × Fb :=
  ({ t with dirty := fill 0 t.size 0 t.dirty },
    fbWrite (.sprites ((ttySprites showCursor t).map Sprite.packed)) f)

/-- `tty_mark_all`, then `tty_render`. -/
def fullRedraw (showCursor : Bool) (t : Tty) (f : Fb) : Option (Tty × Fb) :=
  (ttyMarkAll t).map fun t => ttyRenderPacked showCursor t f

/-- A call of `tty_putc` or `tty_render`. -/
inductive TtyOp
  | putc (ch : UInt8)
  | render

/-- One call. -/
def TtyOp.run (showCursor : Bool) : TtyOp → Tty × Fb → Option (Tty × Fb)
  | .putc ch, s => (ttyPutc ch s.1).map fun t => (t, s.2)
  | .render, s => some (ttyRenderPacked showCursor s.1 s.2)

/-- One call after the other. -/
def runTtyOps (showCursor : Bool) : List TtyOp → Tty × Fb → Option (Tty × Fb)
  | [], s => some s
  | op :: ops, s => (op.run showCursor s).bind fun s => runTtyOps showCursor ops s

section Packed

variable {showCursor : Bool} {t : Tty} {f : Fb}

theorem glyph_le (i : ℕ) : glyph showCursor t i ≤ 255 := by
  have hch := (t.buf i).ch.toNat_lt
  unfold glyph
  split <;> omega

/-- On a screen whose coordinates fit, all fields do. -/
theorem packed_eq (hx : t.columns * 8 ≤ 2 ^ 16) (hy : t.lines * 16 ≤ 2 ^ 16)
    (hd : t.display < 2 ^ 4) {sp : Sprite} (hsp : sp ∈ ttySprites showCursor t) :
    sp.packed = sp := by
  rcases mem_ttySprites.1 hsp with ⟨y, hyl, x, hxc, -, k, hk, rfl⟩
  have hg := @glyph_le showCursor t (t.columns * y + x)
  simp only [Sprite.packed, Sprite.mk.injEq]
  refine ⟨?_, ?_, ?_, ?_, rfl⟩ <;> exact Nat.mod_eq_of_lt (by omega)

theorem ttyRenderPacked_eq (hx : t.columns * 8 ≤ 2 ^ 16) (hy : t.lines * 16 ≤ 2 ^ 16)
    (hd : t.display < 2 ^ 4) : ttyRenderPacked showCursor t f = ttyRender showCursor t f := by
  have hmap : (ttySprites showCursor t).map Sprite.packed = ttySprites showCursor t := by
    conv_rhs => rw [← List.map_id (ttySprites showCursor t)]
    exact List.map_congr_left fun sp hsp => packed_eq hx hy hd hsp
  rw [ttyRenderPacked, hmap, ttyRender]

/-- A list of `n` parts of length `m` at most. -/
theorem length_flatMap_le {α β : Type*} {l : List α} {g : α → List β} {m : ℕ}
    (h : ∀ a ∈ l, (g a).length ≤ m) : (l.flatMap g).length ≤ l.length * m := by
  induction l with
  | nil => simp
  | cons a l ih =>
      have ha := h a List.mem_cons_self
      have hl := ih fun b hb => h b (List.mem_cons_of_mem _ hb)
      rw [List.flatMap_cons, List.length_append, List.length_cons, Nat.succ_mul]
      omega

/-- There are two sprites for a cell at most, for which `sp_buf` has room. -/
theorem length_ttySprites_le (hsize : t.size = t.columns * t.lines) :
    (ttySprites showCursor t).length ≤ 2 * t.size := by
  unfold ttySprites
  refine (length_flatMap_le (m := t.columns * 2) fun y _ => ?_).trans ?_
  · refine (length_flatMap_le (m := 2) fun x _ => ?_).trans ?_
    · split <;> simp
    · rw [List.length_range]
  · rw [List.length_range, hsize]
    exact (show t.lines * (t.columns * 2) = 2 * (t.columns * t.lines) by ring).le

end Packed

/-! ## Places that are no cell's -/

/-- Where no sprite goes, the screen stays. -/
theorem foldl_fbDraw_other {f : Fb} {sps : List Sprite} {p : ℕ × ℕ}
    (h : ∀ sp ∈ sps, (sp.x, sp.y) ≠ p) : (sps.foldl fbDraw f).screen p = f.screen p := by
  induction sps generalizing f with
  | nil => rfl
  | cons sp sps ih =>
      rw [List.foldl_cons, ih fun sp' hsp' => h sp' (List.mem_cons_of_mem _ hsp')]
      unfold fbDraw
      split
      · exact Function.update_of_ne (Ne.symm (h sp List.mem_cons_self)) _ _
      · rfl

/-- Both halves of a cell that is drawn. -/
theorem Drawn.half {showCursor : Bool} {t : Tty} {f : Fb} {x y k : ℕ}
    (h : Drawn showCursor t f x y) (hk : k < 2) :
    f.screen (x * 8, y * 16 + 8 * k) = glyph showCursor t (t.columns * y + x) * 2 + (k + 1) := by
  obtain rfl | rfl : k = 0 ∨ k = 1 := by omega
  · exact h.1
  · exact h.2

/-- Every cell is marked, or shows what it should. -/
def MarkedOrDrawn (showCursor : Bool) (t : Tty) (f : Fb) : Prop :=
  ∀ y < t.lines, ∀ x < t.columns, t.dirty (t.columns * y + x) ≠ 0 ∨ Drawn showCursor t f x y

theorem Fb.ext {f g : Fb} (hcur : f.current = g.current) (hscreen : f.screen = g.screen) :
    f = g := by
  cases f
  cases g
  simp only at hcur hscreen
  rw [hcur, hscreen]

/-- Then it makes no difference which further cells are marked. -/
theorem ttyRender_congr {showCursor : Bool} {t t' : Tty} {f : Fb} (hd : t.display = f.current)
    (hsame : SameScreen t t') (hglyph : ∀ i, glyph showCursor t' i = glyph showCursor t i)
    (h : MarkedOrDrawn showCursor t f) (h' : MarkedOrDrawn showCursor t' f) :
    (ttyRender showCursor t' f).2 = (ttyRender showCursor t f).2 := by
  apply Fb.ext
  · rw [ttyRender_current, ttyRender_current]
  funext p
  by_cases hp : ∃ y < t.lines, ∃ x < t.columns, ∃ k < 2, p = (x * 8, y * 16 + 8 * k)
  · rcases hp with ⟨y, hy, x, hx, k, hk, rfl⟩
    have hy' : y < t'.lines := by rwa [hsame.lines]
    have hx' : x < t'.columns := by rwa [hsame.columns]
    rw [ttyRender_half showCursor hd hx hy hk ((h y hy x hx).imp_right fun hdr => hdr.half hk),
      ttyRender_half showCursor (hsame.display.trans hd) hx' hy' hk
        ((h' y hy' x hx').imp_right fun hdr => hdr.half hk), hsame.columns, hglyph]
  · -- a place of no cell
    have hout : ∀ u : Tty, SameScreen t u →
        (ttyRender showCursor u f).2.screen p = f.screen p := by
      intro u hu
      apply foldl_fbDraw_other
      intro sp hsp he
      rcases mem_ttySprites.1 hsp with ⟨y, hy, x, hx, -, k, hk, rfl⟩
      rw [hu.lines] at hy
      rw [hu.columns] at hx
      exact hp ⟨y, hy, x, hx, k, hk, he.symm⟩
    rw [hout t' hsame, hout t ⟨rfl, rfl, rfl, rfl⟩]

/-! ## The invariant -/

/-- Between two calls on a terminal that is shown. -/
structure RedrawInv (showCursor : Bool) (k : TtyDev) (lines columns : ℕ) (t : Tty) (f : Fb) :
    Prop where
  wf : t.Wf
  same : SameScreen (ttyInit k.display lines columns) t
  current : f.current = k.display
  drawn : MarkedOrDrawn showCursor t f

section Inv

variable {showCursor : Bool} {k : TtyDev} {lines columns : ℕ} {t t' : Tty} {f : Fb}

theorem RedrawInv.size (h : RedrawInv showCursor k lines columns t f) : t.size = columns * lines :=
  h.same.size

theorem RedrawInv.display (h : RedrawInv showCursor k lines columns t f) :
    t.display = f.current :=
  h.same.display.trans h.current.symm

/-- The fields of a sprite are large enough. -/
theorem RedrawInv.packed (h : RedrawInv showCursor k lines columns t f)
    (hx : columns * 8 ≤ 2 ^ 16) (hy : lines * 16 ≤ 2 ^ 16) :
    ttyRenderPacked showCursor t f = ttyRender showCursor t f := by
  apply ttyRenderPacked_eq
  · rwa [h.same.columns]
  · rwa [h.same.lines]
  · rw [h.same.display]
    change k.display < 2 ^ 4
    cases k <;> decide

/-- A cell of the screen is a cell of the buffer. -/
theorem RedrawInv.cell_lt (h : RedrawInv showCursor k lines columns t f) {x y : ℕ}
    (hy : y < t.lines) (hx : x < t.columns) : t.columns * y + x < t.size := by
  rw [h.wf.size_eq]
  exact OsLab.cell_lt hy hx

/-- A byte keeps it. -/
theorem RedrawInv.putc (h : RedrawInv showCursor k lines columns t f) {ch : UInt8}
    (hput : PutcTo t ch t') : RedrawInv showCursor k lines columns t' f := by
  have hsame := hput.same
  refine ⟨hput.wf h.wf, h.same.trans hsame, h.current, fun y hy x hx => ?_⟩
  rw [hsame.lines] at hy
  rw [hsame.columns] at hx ⊢
  rcases hput.keepsMarks h.wf (t.columns * y + x) (h.cell_lt hy hx) with
    hdirty | ⟨hclean, hglyph⟩
  · exact Or.inl hdirty
  · -- nothing changed there, and it was not marked, so it was drawn
    right
    have hdrawn := (h.drawn y hy x hx).resolve_left fun hd => hd hclean
    unfold Drawn at hdrawn ⊢
    rwa [hsame.columns, hglyph]

/-- After a render everything is drawn. -/
theorem RedrawInv.render_drawn (h : RedrawInv showCursor k lines columns t f) {x y : ℕ}
    (hy : y < t.lines) (hx : x < t.columns) :
    Drawn showCursor t (ttyRender showCursor t f).2 x y :=
  ttyRender_drawn h.display hx hy (h.drawn y hy x hx)

theorem RedrawInv.render (h : RedrawInv showCursor k lines columns t f) :
    RedrawInv showCursor k lines columns (ttyRender showCursor t f).1
      (ttyRender showCursor t f).2 := by
  rcases h.wf with ⟨hl, hc, hs, hcur⟩
  refine ⟨⟨hl, hc, hs, hcur⟩, h.same.trans ⟨rfl, rfl, rfl, rfl⟩, ?_, fun y hy x hx => ?_⟩
  · rw [ttyRender_current]
    exact h.current
  · exact Or.inr (h.render_drawn hy hx)

/-- A terminal with all cells marked. -/
theorem redrawInv_markAll (showCursor : Bool) (hw : t.Wf)
    (hsame : SameScreen (ttyInit k.display lines columns) t) (hcur : f.current = k.display) :
    ∃ t', ttyMarkAll t = some t' ∧ RedrawInv showCursor k lines columns t' f ∧
      ∀ i, glyph showCursor t' i = glyph showCursor t i := by
  rw [ttyMarkAll_eq]
  refine ⟨_, rfl, ?_, fun _ => rfl⟩
  rcases ttyMarkAll_marks hw ttyMarkAll_eq with ⟨hw', hsame', hmarks⟩
  refine ⟨hw', hsame.trans hsame', hcur, fun y hy x hx => Or.inl (hmarks _ ?_)⟩
  rw [hw'.size_eq]
  exact OsLab.cell_lt hy hx

/-- A call returns, and keeps it. -/
theorem RedrawInv.step (h : RedrawInv showCursor k lines columns t f) (hl : 1 ≤ lines)
    (hc : 2 ≤ columns) (hx : columns * 8 ≤ 2 ^ 16) (hy : lines * 16 ≤ 2 ^ 16) (op : TtyOp) :
    ∃ t' f', op.run showCursor (t, f) = some (t', f') ∧
      RedrawInv showCursor k lines columns t' f' := by
  cases op with
  | putc ch =>
      rcases ttyPutc_cases h.wf ch with ⟨t', hput, hcase⟩ | ⟨-, hone⟩
      · refine ⟨t', f, ?_, h.putc hcase⟩
        rw [TtyOp.run, hput]
        rfl
      · -- the screen has more than one cell
        have hmul : 2 * 1 ≤ columns * lines := Nat.mul_le_mul hc hl
        rw [h.size] at hone
        omega
  | render =>
      refine ⟨_, _, ?_, h.render⟩
      rw [TtyOp.run, h.packed hx hy]

theorem RedrawInv.run (h : RedrawInv showCursor k lines columns t f) (hl : 1 ≤ lines)
    (hc : 2 ≤ columns) (hx : columns * 8 ≤ 2 ^ 16) (hy : lines * 16 ≤ 2 ^ 16)
    (ops : List TtyOp) :
    ∃ t' f', runTtyOps showCursor ops (t, f) = some (t', f') ∧
      RedrawInv showCursor k lines columns t' f' := by
  induction ops generalizing t f with
  | nil => exact ⟨t, f, rfl, h⟩
  | cons op ops ih =>
      rcases h.step hl hc hx hy op with ⟨t₁, f₁, hrun, h₁⟩
      rcases ih h₁ with ⟨t', f', hrun', h'⟩
      refine ⟨t', f', ?_, h'⟩
      rw [runTtyOps, hrun]
      exact hrun'

end Inv

/-! ## Partial and full redraw -/

/-- A render at `t` and `f` shows every cell as it should, as a full redraw would, with two sprites
for a cell at most, whose number of bytes is an `int`. -/
structure RendersAll (showCursor : Bool) (t : Tty) (f : Fb) : Prop where
  drawn : ∀ y < t.lines, ∀ x < t.columns,
    Drawn showCursor t (ttyRenderPacked showCursor t f).2 x y
  full : (fullRedraw showCursor t f).map Prod.snd = some (ttyRenderPacked showCursor t f).2
  sprites : ((ttySprites showCursor t).map Sprite.packed).length ≤ 2 * t.size
  bytes : 2 * t.size * 8 < 2 ^ 31

/-- From a full mark and render on, after any bytes and renders, the next render is as good as a
full one. -/
theorem partial_redraw {showCursor : Bool} {k : TtyDev} {width height : ℕ} (hw : width ≤ 65535)
    (hh : height ≤ 65535) (hl : 1 ≤ height / 16) (hc : 2 ≤ width / 8) {t₀ : Tty} {f₀ : Fb}
    (hwf : t₀.Wf) (hscreen : SameScreen (ttyInit k.display (height / 16) (width / 8)) t₀)
    (hcur : f₀.current = k.display) :
    ∃ t₁ f₁, fullRedraw showCursor t₀ f₀ = some (t₁, f₁) ∧
      ∀ ops, ∃ t f, runTtyOps showCursor ops (t₁, f₁) = some (t, f) ∧
        RendersAll showCursor t f := by
  have hx : width / 8 * 8 ≤ 2 ^ 16 := by omega
  have hy : height / 16 * 16 ≤ 2 ^ 16 := by omega
  obtain ⟨t₀', hmark₀, h₀, -⟩ := redrawInv_markAll showCursor hwf hscreen hcur
  refine ⟨(ttyRender showCursor t₀' f₀).1, (ttyRender showCursor t₀' f₀).2, ?_, fun ops => ?_⟩
  · rw [fullRedraw, hmark₀, Option.map_some, h₀.packed hx hy]
  obtain ⟨t, f, hrun, h⟩ := h₀.render.run hl hc hx hy ops
  refine ⟨t, f, hrun, ?_, ?_, ?_, ?_⟩
  · intro y hy' x hx'
    rw [h.packed hx hy]
    exact h.render_drawn hy' hx'
  · obtain ⟨t', hmark, h', hglyph⟩ := redrawInv_markAll showCursor h.wf h.same h.current
    rw [fullRedraw, hmark, Option.map_some, Option.map_some, h'.packed hx hy, h.packed hx hy]
    have hsame : SameScreen t t' := by
      rw [ttyMarkAll_eq] at hmark
      obtain rfl := Option.some.inj hmark
      exact ⟨rfl, rfl, rfl, rfl⟩
    exact congrArg some (ttyRender_congr h.display hsame hglyph h.drawn h'.drawn)
  · rw [List.length_map]
    exact length_ttySprites_le h.wf.size_eq
  · have hmul : width / 8 * (height / 16) ≤ 8191 * 4095 := Nat.mul_le_mul (by omega) (by omega)
    rw [h.size]
    omega

/-- A character, a render and a line feed on a screen of 640 x 480 pixels. -/
theorem partial_redraw_640 : ∃ t₁ f₁ t f,
    fullRedraw true (ttyInit 0 30 80) ⟨0, fun _ => 0⟩ = some (t₁, f₁) ∧
      runTtyOps true [.putc 'a'.toUInt8, .render, .putc '\n'.toUInt8] (t₁, f₁) = some (t, f) ∧
      RendersAll true t f := by
  obtain ⟨t₁, f₁, hfull, hops⟩ := @partial_redraw true .tty1 640 480 (by decide) (by decide)
    (by decide) (by decide) (ttyInit 0 30 80) ⟨0, fun _ => 0⟩
    (ttyInit_wf 0 (by decide) (by decide)) ⟨rfl, rfl, rfl, rfl⟩ rfl
  obtain ⟨t, f, hrun, hall⟩ := hops [.putc 'a'.toUInt8, .render, .putc '\n'.toUInt8]
  exact ⟨t₁, f₁, t, f, hfull, hrun, hall⟩

end OsLab
