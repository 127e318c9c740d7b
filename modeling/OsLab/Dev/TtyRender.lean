import OsLab.Dev.Tty

/-! # Drawing a terminal (`tty_render` of `dev_tty.c`, `fb_write` of `dev_video.c`)

`tty_render` makes two sprites for every marked cell, the upper and the lower half of
its character, hands them to the frame buffer and clears the marks. The frame
buffer draws only the sprites of the display that is current.

A screen is taken to be less than 2^16 pixels wide and high, so that the
coordinates fit the fields of `struct sprite`.
-/

namespace OsLab

open Copy

/-- `struct sprite`. -/
structure Sprite where
  texture : ℕ
  x : ℕ
  y : ℕ
  display : ℕ
  z : ℕ

/-- The frame buffer: `info->current`, and the number of the texture last drawn at each place. -/
structure Fb where
  current : ℕ
  screen : ℕ × ℕ → ℕ

/-- What is written to the frame buffer: a `struct display_info` at offset 0, or sprites at
`SPRITE_BRK`. -/
inductive FbData
  | info (current : ℕ)
  | sprites (sps : List Sprite)

/-- The loop of `fb_write` over the sprites, one round. -/
def fbDraw (f : Fb) (sp : Sprite) : Fb :=
  if sp.texture > 0 ∧ sp.display = f.current then
    { f with screen := Function.update f.screen (sp.x, sp.y) sp.texture }
  else f

/-- `fb_write`. -/
def fbWrite : FbData → Fb → Fb
  | .info current, f => if f.current ≠ current then { f with current := current } else f
  | .sprites sps, f => sps.foldl fbDraw f

/-- `draw` in `tty_render`: the character to show for cell `i`. -/
def glyph (showCursor : Bool) (t : Tty) (i : ℕ) : ℕ :=
  if i = t.cursor ∧ showCursor then 0xdb else (t.buf i).ch.toNat

/-- The sprites `tty_render` makes. -/
def ttySprites (showCursor : Bool) (t : Tty) : List Sprite :=
  (List.range t.lines).flatMap fun y =>
    (List.range t.columns).flatMap fun x =>
      if t.dirty (t.columns * y + x) ≠ 0 then
        let draw := glyph showCursor t (t.columns * y + x)
        [⟨draw * 2 + 1, x * 8, y * 16, t.display, 0⟩,
          ⟨draw * 2 + 2, x * 8, y * 16 + 8, t.display, 0⟩]
      else []

/-- `tty_render`. -/
def ttyRender (showCursor : Bool) (t : Tty) (f : Fb) : Tty × Fb :=
  ({ t with dirty := fill 0 t.size 0 t.dirty }, fbWrite (.sprites (ttySprites showCursor t)) f)

/-- The screen shows the character that cell `x` of row `y` calls for. -/
def Drawn (showCursor : Bool) (t : Tty) (f : Fb) (x y : ℕ) : Prop :=
  f.screen (x * 8, y * 16) = glyph showCursor t (t.columns * y + x) * 2 + 1 ∧
    f.screen (x * 8, y * 16 + 8) = glyph showCursor t (t.columns * y + x) * 2 + 2

/-! ## Sprites on the screen -/

section Sprites

variable {f : Fb} {sps : List Sprite}

/-- The sprites of another display are discarded. -/
theorem foldl_fbDraw_hidden (h : ∀ sp ∈ sps, sp.display ≠ f.current) :
    sps.foldl fbDraw f = f := by
  induction sps with
  | nil => rfl
  | cons sp sps ih =>
      have hskip : fbDraw f sp = f := if_neg fun hc => h sp List.mem_cons_self hc.2
      rw [List.foldl_cons, hskip]
      exact ih fun sp hsp => h sp (List.mem_cons_of_mem _ hsp)

theorem foldl_fbDraw_current : (sps.foldl fbDraw f).current = f.current := by
  induction sps generalizing f with
  | nil => rfl
  | cons sp sps ih =>
      rw [List.foldl_cons, ih]
      unfold fbDraw
      split <;> rfl

/-- Where the sprites agree on a texture, it is on the screen if it was there before or one of them
goes there. -/
theorem foldl_fbDraw_screen {p : ℕ × ℕ} {tx : ℕ}
    (hvis : ∀ sp ∈ sps, sp.texture > 0 ∧ sp.display = f.current)
    (htx : ∀ sp ∈ sps, (sp.x, sp.y) = p → sp.texture = tx)
    (h : f.screen p = tx ∨ ∃ sp ∈ sps, (sp.x, sp.y) = p) :
    (sps.foldl fbDraw f).screen p = tx := by
  -- on the sprites: once the texture is there, the later ones do not change it
  induction sps generalizing f with
  | nil =>
      rcases h with h | ⟨sp, hsp, -⟩
      · exact h
      · cases hsp
  | cons sp sps ih =>
      have hdraw : fbDraw f sp =
          { f with screen := Function.update f.screen (sp.x, sp.y) sp.texture } :=
        if_pos (hvis sp List.mem_cons_self)
      rw [List.foldl_cons, hdraw]
      apply ih
      · exact fun sp' hsp' => hvis sp' (List.mem_cons_of_mem _ hsp')
      · exact fun sp' hsp' => htx sp' (List.mem_cons_of_mem _ hsp')
      · by_cases hp : (sp.x, sp.y) = p
        · left
          simp only
          rw [hp, Function.update_self]
          exact htx sp List.mem_cons_self hp
        · rcases h with h | ⟨sp', hsp', hp'⟩
          · left
            simp only
            rw [Function.update_of_ne (Ne.symm hp)]
            exact h
          · right
            rcases List.mem_cons.1 hsp' with rfl | hin
            · exact absurd hp' hp
            · exact ⟨sp', hin, hp'⟩

end Sprites

section Render

variable {showCursor : Bool} {t : Tty} {f : Fb} {x y : ℕ}

/-- Half `k` of a marked cell. -/
theorem mem_ttySprites {sp : Sprite} : sp ∈ ttySprites showCursor t ↔
    ∃ y < t.lines, ∃ x < t.columns, t.dirty (t.columns * y + x) ≠ 0 ∧ ∃ k < 2,
      sp = ⟨glyph showCursor t (t.columns * y + x) * 2 + (k + 1), x * 8, y * 16 + 8 * k, t.display,
        0⟩ := by
  unfold ttySprites
  simp only [List.mem_flatMap, List.mem_range]
  constructor
  · rintro ⟨y, hy, x, hx, hsp⟩
    split at hsp
    · rename_i hdirty
      refine ⟨y, hy, x, hx, hdirty, ?_⟩
      rcases List.mem_cons.1 hsp with rfl | hsp
      · exact ⟨0, by decide, rfl⟩
      · obtain rfl := List.mem_singleton.1 hsp
        exact ⟨1, by decide, rfl⟩
    · cases hsp
  · rintro ⟨y, hy, x, hx, hdirty, k, hk, rfl⟩
    refine ⟨y, hy, x, hx, ?_⟩
    rw [if_pos hdirty]
    obtain rfl | rfl : k = 0 ∨ k = 1 := by omega
    · exact List.mem_cons_self
    · exact List.mem_cons_of_mem _ List.mem_cons_self

/-- While another display is current, nothing is drawn. -/
theorem ttyRender_hidden (h : t.display ≠ f.current) : (ttyRender showCursor t f).2 = f := by
  apply foldl_fbDraw_hidden
  intro sp hsp
  rcases mem_ttySprites.1 hsp with ⟨y, -, x, -, -, k, -, rfl⟩
  exact h

theorem ttyRender_current : (ttyRender showCursor t f).2.current = f.current :=
  foldl_fbDraw_current

/-- Half `k` of a cell is drawn when it was drawn before, or the cell is marked. -/
theorem ttyRender_half (showCursor : Bool) {k : ℕ} (h : t.display = f.current)
    (hx : x < t.columns) (hy : y < t.lines) (hk : k < 2) (hcell : t.dirty (t.columns * y + x) ≠ 0 ∨
      f.screen (x * 8, y * 16 + 8 * k) = glyph showCursor t (t.columns * y + x) * 2 + (k + 1)) :
    (ttyRender showCursor t f).2.screen (x * 8, y * 16 + 8 * k) =
      glyph showCursor t (t.columns * y + x) * 2 + (k + 1) := by
  apply foldl_fbDraw_screen
  · intro sp hsp
    rcases mem_ttySprites.1 hsp with ⟨y, -, x, -, -, k, -, rfl⟩
    exact ⟨Nat.succ_pos _, h⟩
  · -- a place belongs to one cell only
    intro sp hsp hp
    rcases mem_ttySprites.1 hsp with ⟨y', -, x', -, -, k', hk', rfl⟩
    simp only [Prod.mk.injEq] at hp
    obtain rfl : x' = x := by omega
    obtain rfl : y' = y := by omega
    obtain rfl : k' = k := by omega
    rfl
  · rcases hcell with hdirty | hdrawn
    · exact Or.inr ⟨_, mem_ttySprites.2 ⟨y, hy, x, hx, hdirty, k, hk, rfl⟩, rfl⟩
    · exact Or.inl hdrawn

/-- A cell that was marked or drawn is drawn afterwards. -/
theorem ttyRender_drawn (h : t.display = f.current) (hx : x < t.columns) (hy : y < t.lines)
    (hcell : t.dirty (t.columns * y + x) ≠ 0 ∨ Drawn showCursor t f x y) :
    Drawn showCursor t (ttyRender showCursor t f).2 x y := by
  have hupper := ttyRender_half showCursor h hx hy (show 0 < 2 by decide)
  have hlower := ttyRender_half showCursor h hx hy (show 1 < 2 by decide)
  simp only [Nat.mul_zero, Nat.add_zero, Nat.zero_add] at hupper
  simp only [Nat.mul_one, Nat.reduceAdd] at hlower
  exact ⟨hupper (hcell.imp_right And.left), hlower (hcell.imp_right And.right)⟩

end Render

/-! ## Marks -/

/-- Every cell that shows another character than before is marked, and no mark is lost. -/
def KeepsMarks (showCursor : Bool) (t t' : Tty) : Prop :=
  ∀ i < t.size, t'.dirty i ≠ 0 ∨
    (t.dirty i = 0 ∧ glyph showCursor t' i = glyph showCursor t i)

section Marks

variable {showCursor : Bool} {t t' u : Tty} {ch : UInt8}

theorem KeepsMarks.trans (h : KeepsMarks showCursor t t') (hsame : SameScreen t t')
    (h' : KeepsMarks showCursor t' u) : KeepsMarks showCursor t u := by
  intro i hi
  rcases h' i (by rw [hsame.size]; exact hi) with hdirty | ⟨hclean, hglyph⟩
  · exact Or.inl hdirty
  · rcases h i hi with hdirty | ⟨hclean', hglyph'⟩
    · exact absurd hclean hdirty
    · exact Or.inr ⟨hclean', hglyph.trans hglyph'⟩

/-- Outside the cells newly marked, characters and cursor are as before. -/
theorem keepsMarks_fill {p n : ℕ} (hdirty : t'.dirty = fill p n 1 t.dirty)
    (h : ∀ i, ¬ (p ≤ i ∧ i < p + n) → t'.buf i = t.buf i ∧ i ≠ t.cursor ∧ i ≠ t'.cursor) :
    KeepsMarks showCursor t t' := by
  intro i hi
  rw [hdirty]
  unfold fill
  by_cases hin : p ≤ i ∧ i < p + n
  · left
    rw [if_pos hin]
    decide
  · rw [if_neg hin]
    rcases h i hin with ⟨hbuf, hcur, hcur'⟩
    by_cases hd : t.dirty i = 0
    · right
      refine ⟨hd, ?_⟩
      unfold glyph
      rw [if_neg fun hc => hcur' hc.1, if_neg fun hc => hcur hc.1, hbuf]
    · exact Or.inl hd

/-- A scroll marks everything. -/
theorem keepsMarks_scrolled (h : SameScreen t u) : KeepsMarks showCursor t u.scrolled := by
  intro i hi
  left
  unfold Tty.scrolled fill
  simp only
  rw [if_pos (by rw [h.size]; omega)]
  decide

theorem PutcTo.keepsMarks (h : PutcTo t ch t') (hw : t.Wf) : KeepsMarks showCursor t t' := by
  have hmod := Nat.mod_lt t.cursor hw.columns_pos
  have hle := Nat.mod_le t.cursor t.columns
  cases h with
  | cr =>
      apply keepsMarks_fill rfl
      intro i hi
      exact ⟨rfl, by omega, by simp only; omega⟩
  | backsp =>
      apply keepsMarks_fill rfl
      intro i hi
      refine ⟨?_, by omega, by simp only; omega⟩
      simp only
      split
      · rw [Function.update_of_ne (by omega)]
      · rfl
  | lf _ =>
      apply keepsMarks_fill rfl
      intro i hi
      exact ⟨rfl, by omega, by simp only; omega⟩
  | char _ _ _ _ =>
      apply keepsMarks_fill rfl
      intro i hi
      refine ⟨?_, by omega, by simp only; omega⟩
      exact Function.update_of_ne (by omega) _ _
  | lfLast _ => exact keepsMarks_scrolled ⟨rfl, rfl, rfl, rfl⟩
  | charLast _ _ _ _ => exact keepsMarks_scrolled ⟨rfl, rfl, rfl, rfl⟩

/-- `tty_mark_all` marks every cell. -/
theorem ttyMarkAll_marks (hw : t.Wf) (h : ttyMarkAll t = some t') :
    t'.Wf ∧ SameScreen t t' ∧ ∀ i < t'.size, t'.dirty i ≠ 0 := by
  rw [ttyMarkAll_eq] at h
  obtain rfl := Option.some.inj h
  rcases hw with ⟨hl, hc, hs, hcur⟩
  refine ⟨⟨hl, hc, hs, hcur⟩, ⟨rfl, rfl, rfl, rfl⟩, ?_⟩
  intro i hi
  simp only at hi ⊢
  unfold fill
  rw [if_pos (by omega)]
  decide

/-- What the locked part of `tty_write` does to a screen. -/
theorem ttyPutcs_keepsMarks {chs : List UInt8} (hw : t.Wf) (h : ttyPutcs chs t = some t') :
    t'.Wf ∧ SameScreen t t' ∧ KeepsMarks showCursor t t' := by
  induction chs generalizing t with
  | nil =>
      obtain rfl := Option.some.inj h
      refine ⟨hw, ⟨rfl, rfl, rfl, rfl⟩, ?_⟩
      intro i _
      by_cases hd : t.dirty i = 0
      · exact Or.inr ⟨hd, rfl⟩
      · exact Or.inl hd
  | cons ch chs ih =>
      unfold ttyPutcs at h
      rw [List.foldlM_cons] at h
      rcases Option.bind_eq_some_iff.1 h with ⟨u, hu, h⟩
      have hput := putcTo_of_ttyPutc hw hu
      rcases ih (hput.wf hw) h with ⟨hw', hsame, hkeep⟩
      have hsame₀ := hput.same
      exact ⟨hw', hsame₀.trans hsame, (hput.keepsMarks hw).trans hsame₀ hkeep⟩

end Marks

end OsLab
