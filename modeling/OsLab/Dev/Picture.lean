import OsLab.Dev.TtyRedraw

/-! # Pixels (`dev_video.c`, `gpu_fbdraw` of `ioe.c`)

`font_load` makes two textures of every character of the font, `fb_write` hands those of
the sprites to the graphics driver, and `gpu_fbdraw` stores their pixels in the video
memory, clipped to the screen. `OsLab.Dev.TtyRender` knows a screen by the number of
the texture at each place; here it is known by its pixels, and the one is shown to
follow from the other. So after `tty_render` the screen shows the text of the terminal, bit for bit.

The font is any table of 16 bytes for each character. `gpu_fbdraw` numbers the pixels with an
`int`; `none` is an overflow of it.
-/

namespace OsLab

open Copy

def TEXTURE_W : ℕ := 8
def TEXTURE_H : ℕ := 8

/-- `struct pixel`. -/
structure Pixel where
  b : UInt8
  g : UInt8
  r : UInt8
deriving DecidableEq

/-- A pixel of a texture, `0xRRGGBB`. -/
def toPixel (p : UInt32) : Pixel := ⟨p.toUInt8, (p >>> 8).toUInt8, (p >>> 16).toUInt8⟩

/-- The pixels of a texture, row after row. -/
abbrev Texture := ℕ → UInt32

/-- A row of `texture_fill`. -/
def textureRow (bitmask : UInt8) (fg bg : UInt32) (x : ℕ) : UInt32 :=
  if bitmask.toNat.testBit (7 - x) then fg else bg

/-- `texture_fill`. -/
def textureFill (top : Bool) (bits : ℕ → UInt8) (fg bg : UInt32) (px : Texture) : Texture :=
  (List.range TEXTURE_H).foldl (fun px y =>
    let bitmask := if top then bits (y + TEXTURE_H) else bits y
    copyTo (textureRow bitmask fg bg) (TEXTURE_W * y) 0 TEXTURE_W px) px

/-- One round of `font_load`. -/
def fontLoadChar (font : ℕ → UInt8) (textures : ℕ → Texture) (ch : ℕ) : ℕ → Texture :=
  let bits := fun i => font (16 * ch + i)
  let textures := Function.update textures (ch * 2 + 1)
    (textureFill false bits 0xeeeeee 0x000000 (textures (ch * 2 + 1)))
  Function.update textures (ch * 2 + 2)
    (textureFill true bits 0xeeeeee 0x000000 (textures (ch * 2 + 2)))

/-- `font_load`. -/
def fontLoad (font : ℕ → UInt8) (textures : ℕ → Texture) : ℕ → Texture :=
  (List.range 256).foldl (fontLoadChar font) textures

/-- The loop of `gpu_fbdraw` over the rows. -/
def fbdrawRows (pixels : Texture) (x y w W H len : ℕ) : ℕ → (ℕ → Pixel) → Option (ℕ → Pixel)
  | 0, fb => some fb
  | j + 1, fb => (fbdrawRows pixels x y w W H len j fb).bind fun fb =>
      if y + j < H then
        let px := x + (j + y) * W
        if px < 2 ^ 31 then some (copyTo (fun i => toPixel (pixels i)) px (w * j) len fb) else none
      else some fb

/-- `gpu_fbdraw`, on a screen of `W` x `H` pixels. -/
def gpuFbdraw (x y : ℕ) (pixels : Texture) (w h W H : ℕ) (fb : ℕ → Pixel) :
    Option (ℕ → Pixel) :=
  let len := if x + w ≥ W then W - x else w
  fbdrawRows pixels x y w W H len h fb

/-- The frame buffer with its textures, and the screen. -/
structure Video where
  current : ℕ
  textures : ℕ → Texture
  width : ℕ
  height : ℕ
  fb : ℕ → Pixel

/-- The loop of `fb_write` over the sprites, one round. -/
def videoDraw (v : Video) (sp : Sprite) : Option Video :=
  if sp.texture > 0 ∧ sp.display = v.current then
    (gpuFbdraw sp.x sp.y (v.textures sp.texture) TEXTURE_W TEXTURE_H v.width v.height v.fb).map
      fun fb => { v with fb := fb }
  else some v

/-- `fb_write`. -/
def videoWrite : FbData → Video → Option Video
  | .info current, v => some (if v.current ≠ current then { v with current := current } else v)
  | .sprites sps, v => sps.foldlM videoDraw v

/-- `tty_render`. -/
def ttyRenderVideo (showCursor : Bool) (t : Tty) (v : Video) : Option (Tty × Video) :=
  (videoWrite (.sprites ((ttySprites showCursor t).map Sprite.packed)) v).map fun v =>
    ({ t with dirty := fill 0 t.size 0 t.dirty }, v)

/-- `tty_mark_all`, then `tty_render`. -/
def fullRedrawVideo (showCursor : Bool) (t : Tty) (v : Video) : Option (Tty × Video) :=
  (ttyMarkAll t).bind fun t => ttyRenderVideo showCursor t v

/-- One call. -/
def TtyOp.runVideo (showCursor : Bool) : TtyOp → Tty × Video → Option (Tty × Video)
  | .putc ch, s => (ttyPutc ch s.1).map fun t => (t, s.2)
  | .render, s => ttyRenderVideo showCursor s.1 s.2

/-- One call after the other. -/
def runVideoOps (showCursor : Bool) : List TtyOp → Tty × Video → Option (Tty × Video)
  | [], s => some s
  | op :: ops, s => (op.runVideo showCursor s).bind fun s => runVideoOps showCursor ops s

/-- The pixel in column `x` of row `y` of a character. -/
def fontPixel (font : ℕ → UInt8) (ch x y : ℕ) : Pixel :=
  toPixel (if (font (16 * ch + y)).toNat.testBit (7 - x) then 0xeeeeee else 0x000000)

/-- Every pixel of the text area is that of the character whose cell it is in, or of the cursor. -/
def ShowsText (font : ℕ → UInt8) (showCursor : Bool) (t : Tty) (v : Video) : Prop :=
  ∀ y < t.lines * 16, ∀ x < t.columns * 8, v.fb (x + y * v.width) =
    fontPixel font (glyph showCursor t (t.columns * (y / 16) + x / 8)) (x % 8) (y % 16)

/-! ## Textures -/

section Textures

variable {font : ℕ → UInt8} {textures : ℕ → Texture}

/-- A row of a texture. -/
theorem copyTo_row {m : ℕ → UInt32} {px : Texture} {x y n : ℕ} (hx : x < 8) :
    copyTo m (TEXTURE_W * n) 0 TEXTURE_W px (8 * y + x) =
      if y = n then m x else px (8 * y + x) := by
  rw [copyTo_apply]
  by_cases hyn : y = n
  · have hin : TEXTURE_W * n ≤ 8 * y + x ∧ 8 * y + x < TEXTURE_W * n + TEXTURE_W := by
      unfold TEXTURE_W
      omega
    rw [if_pos hin, if_pos hyn, hyn, TEXTURE_W, Nat.add_sub_cancel_left, Nat.zero_add]
  · have hout : ¬ (TEXTURE_W * n ≤ 8 * y + x ∧ 8 * y + x < TEXTURE_W * n + TEXTURE_W) := by
      unfold TEXTURE_W
      omega
    rw [if_neg hout, if_neg hyn]

theorem textureFill_apply (top : Bool) (bits : ℕ → UInt8) (fg bg : UInt32) (px : Texture)
    {x y : ℕ} (hx : x < 8) (hy : y < 8) : textureFill top bits fg bg px (8 * y + x) =
      textureRow (bits (y + if top then 8 else 0)) fg bg x := by
  -- on the rows that are done
  have hrows : ∀ n, (List.range n).foldl (fun px y =>
      copyTo (textureRow (if top then bits (y + TEXTURE_H) else bits y) fg bg) (TEXTURE_W * y) 0
        TEXTURE_W px) px (8 * y + x) =
      if y < n then textureRow (bits (y + if top then 8 else 0)) fg bg x
      else px (8 * y + x) := by
    intro n
    induction n with
    | zero => rfl
    | succ n ih =>
        rw [List.range_succ, List.foldl_append, List.foldl_cons, List.foldl_nil, copyTo_row hx, ih]
        by_cases hyn : y = n
        · subst hyn
          rw [if_pos rfl, if_pos (Nat.lt_succ_self y)]
          cases top <;> rfl
        · rw [if_neg hyn]
          simp only [Nat.lt_succ_iff_lt_or_eq, hyn, or_false]
  exact (hrows 8).trans (if_pos hy)

/-- `font_load` makes texture `ch * 2 + 1 + k` the half `k` of the character `ch`. -/
theorem fontLoad_apply {ch k x y : ℕ} (hch : ch < 256) (hk : k < 2) (hx : x < 8) (hy : y < 8) :
    toPixel (fontLoad font textures (ch * 2 + (k + 1)) (8 * y + x)) =
      fontPixel font ch x (8 * k + y) := by
  have hload : ∀ n, (List.range n).foldl (fontLoadChar font) textures (ch * 2 + (k + 1))
      (8 * y + x) = if ch < n then textureRow (font (16 * ch + (8 * k + y))) 0xeeeeee 0x000000 x
      else textures (ch * 2 + (k + 1)) (8 * y + x) := by
    intro n
    induction n with
    | zero => rfl
    | succ n ih =>
        rw [List.range_succ, List.foldl_append, List.foldl_cons, List.foldl_nil, fontLoadChar]
        by_cases hcn : ch = n
        · subst hcn
          rw [if_pos (Nat.lt_succ_self ch)]
          obtain rfl | rfl : k = 0 ∨ k = 1 := by omega
          · rw [Function.update_of_ne (by omega), Function.update_self,
              textureFill_apply _ _ _ _ _ hx hy]
            simp
          · rw [Function.update_self, textureFill_apply _ _ _ _ _ hx hy]
            simp [Nat.add_comm]
        · rw [Function.update_of_ne (by omega), Function.update_of_ne (by omega), ih]
          simp only [Nat.lt_succ_iff_lt_or_eq, hcn, or_false]
  rw [fontLoad, hload, if_pos hch]
  rfl

end Textures

/-! ## Drawing -/

section Draw

variable {pixels : Texture} {x y w h W H len n : ℕ} {fb : ℕ → Pixel}

/-- A row of the screen has its numbers in range. -/
theorem pixel_lt {r : ℕ} (hx : x < W) (hr : r < H) : x + r * W < W * H := by
  have hrow : (r + 1) * W ≤ H * W := Nat.mul_le_mul_right W hr
  rw [Nat.add_mul, Nat.one_mul] at hrow
  rw [Nat.mul_comm W H]
  omega

/-- The rows below the screen are left out. -/
theorem fbdrawRows_eq (hx : x < W) (hint : W * H ≤ 2 ^ 31) :
    fbdrawRows pixels x y w W H len n fb =
      some (copyRows (fun i => toPixel (pixels i)) w W x y len (min n (H - y)) fb) := by
  induction n with
  | zero =>
      rw [Nat.zero_min]
      rfl
  | succ n ih =>
      rw [fbdrawRows, ih, Option.bind_some]
      by_cases hrow : y + n < H
      · have hpx : x + (n + y) * W < 2 ^ 31 :=
          Nat.lt_of_lt_of_le (pixel_lt hx (by omega)) hint
        rw [if_pos hrow, if_pos hpx, Nat.min_eq_left (show n ≤ H - y by omega),
          Nat.min_eq_left (show n + 1 ≤ H - y by omega), copyRows]
      · rw [if_neg hrow, Nat.min_eq_right (show H - y ≤ n by omega),
          Nat.min_eq_right (show H - y ≤ n + 1 by omega)]

/-- `gpu_fbdraw` changes the pixels of the rectangle that are on the screen. -/
theorem exists_gpuFbdraw (hx : x < W) (hint : W * H ≤ 2 ^ 31) :
    ∃ fb', gpuFbdraw x y pixels w h W H fb = some fb' ∧ ∀ c < W, ∀ r < H, fb' (c + r * W) =
      if x ≤ c ∧ c < x + w ∧ y ≤ r ∧ r < y + h then toPixel (pixels (w * (r - y) + (c - x)))
      else fb (c + r * W) := by
  refine ⟨_, fbdrawRows_eq hx hint, fun c hc r hr => ?_⟩
  rw [copyRows_apply (by split <;> omega) hc]
  congr 1
  apply propext
  split <;> omega

end Draw

/-! ## Sprites on the screen -/

/-- The 8 x 8 pixels at column `8 * a` and row `8 * b` are those of the texture that `f` has there. -/
def Agrees (f : Fb) (v : Video) (a b : ℕ) : Prop :=
  ∀ i < 8, ∀ j < 8, 8 * a + i < v.width → 8 * b + j < v.height →
    v.fb (8 * a + i + (8 * b + j) * v.width) =
      toPixel (v.textures (f.screen (8 * a, 8 * b)) (8 * j + i))

/-- The same frame buffer, but for the picture. -/
structure SameFb (v v' : Video) : Prop where
  current : v'.current = v.current
  textures : v'.textures = v.textures
  width : v'.width = v.width
  height : v'.height = v.height

theorem SameFb.trans {v v' v'' : Video} (h : SameFb v v') (h' : SameFb v' v'') : SameFb v v'' :=
  ⟨h'.1.trans h.1, h'.2.trans h.2, h'.3.trans h.3, h'.4.trans h.4⟩

/-- The sprite has its place on the grid, and starts on the screen. -/
def Sprite.OnGrid (width : ℕ) (sp : Sprite) : Prop := 8 ∣ sp.x ∧ 8 ∣ sp.y ∧ sp.x < width

/-- What one round of `fb_write` does to the pixels. -/
structure SpriteDrawn (v : Video) (sp : Sprite) (v' : Video) : Prop where
  same : SameFb v v'
  pixel : ∀ c < v.width, ∀ r < v.height, v'.fb (c + r * v.width) =
    if (sp.texture > 0 ∧ sp.display = v.current) ∧ sp.x ≤ c ∧ c < sp.x + 8 ∧ sp.y ≤ r ∧
      r < sp.y + 8 then toPixel (v.textures sp.texture (8 * (r - sp.y) + (c - sp.x)))
    else v.fb (c + r * v.width)

section Sprites

variable {f : Fb} {v v' : Video} {sp : Sprite} {sps : List Sprite} {a b : ℕ}

theorem exists_videoDraw (hx : sp.x < v.width) (hint : v.width * v.height ≤ 2 ^ 31) :
    ∃ v', videoDraw v sp = some v' ∧ SpriteDrawn v sp v' := by
  unfold videoDraw
  by_cases hvis : sp.texture > 0 ∧ sp.display = v.current
  · obtain ⟨fb, hfb, hpixel⟩ := @exists_gpuFbdraw (v.textures sp.texture) sp.x sp.y TEXTURE_W
      TEXTURE_H v.width v.height v.fb hx hint
    refine ⟨{ v with fb := fb }, ?_, ⟨rfl, rfl, rfl, rfl⟩, fun c hc r hr => ?_⟩
    · rw [if_pos hvis, hfb]
      rfl
    · simp only [hvis, true_and]
      exact hpixel c hc r hr
  · refine ⟨v, if_neg hvis, ⟨rfl, rfl, rfl, rfl⟩, fun c _ r _ => ?_⟩
    rw [if_neg fun h => hvis h.1]

/-- A sprite that is drawn. -/
theorem SpriteDrawn.agrees_self (h : SpriteDrawn v sp v') (hcur : f.current = v.current)
    (hvis : sp.texture > 0 ∧ sp.display = f.current) (hx : sp.x = 8 * a) (hy : sp.y = 8 * b) :
    Agrees (fbDraw f sp) v' a b := by
  unfold fbDraw
  rw [if_pos hvis]
  intro i hi j hj hc hr
  rw [h.same.width] at hc ⊢
  rw [h.same.height] at hr
  have hin : 8 * a ≤ 8 * a + i ∧ 8 * a + i < 8 * a + 8 ∧
      8 * b ≤ 8 * b + j ∧ 8 * b + j < 8 * b + 8 := by omega
  rw [hcur] at hvis
  rw [h.pixel _ hc _ hr, hx, hy, if_pos ⟨hvis, hin⟩, h.same.textures, Nat.add_sub_cancel_left,
    Nat.add_sub_cancel_left]
  simp only [Function.update_self]

/-- A sprite at another place, or one that is not drawn. -/
theorem SpriteDrawn.agrees (h : SpriteDrawn v sp v') (hold : Agrees f v a b) (hcur : f.current = v.current)
    (hgrid : sp.OnGrid v.width) : Agrees (fbDraw f sp) v' a b := by
  rcases hgrid with ⟨⟨a', hx⟩, ⟨b', hy⟩, -⟩
  by_cases hself : (sp.texture > 0 ∧ sp.display = f.current) ∧ a' = a ∧ b' = b
  · obtain ⟨hvis, rfl, rfl⟩ := hself
    exact h.agrees_self hcur hvis hx hy
  · intro i hi j hj hc hr
    rw [h.same.width] at hc ⊢
    rw [h.same.height] at hr
    have hout : ¬ ((sp.texture > 0 ∧ sp.display = v.current) ∧ 8 * a' ≤ 8 * a + i ∧
        8 * a + i < 8 * a' + 8 ∧ 8 * b' ≤ 8 * b + j ∧ 8 * b + j < 8 * b' + 8) := by
      rintro ⟨hvis, hin⟩
      exact hself ⟨hcur ▸ hvis, by omega, by omega⟩
    have hscreen : (fbDraw f sp).screen (8 * a, 8 * b) = f.screen (8 * a, 8 * b) := by
      unfold fbDraw
      split
      · rename_i hvis
        refine Function.update_of_ne (fun he => hself ⟨hvis, ?_⟩) _ _
        rw [hx, hy, Prod.mk.injEq] at he
        omega
      · rfl
    rw [h.pixel _ hc _ hr, hx, hy, if_neg hout, h.same.textures, hscreen]
    exact hold i hi j hj hc hr

/-- After all sprites a place agrees if it did before, or a sprite was drawn there. -/
theorem exists_agrees_foldlM (hcur : f.current = v.current)
    (hgrid : ∀ sp ∈ sps, sp.OnGrid v.width) (hint : v.width * v.height ≤ 2 ^ 31) :
    ∃ v', sps.foldlM videoDraw v = some v' ∧ SameFb v v' ∧ ∀ a b, (Agrees f v a b ∨ ∃ sp ∈ sps,
      (sp.texture > 0 ∧ sp.display = f.current) ∧ sp.x = 8 * a ∧ sp.y = 8 * b) →
      Agrees (sps.foldl fbDraw f) v' a b := by
  induction sps generalizing f v with
  | nil =>
      refine ⟨v, rfl, ⟨rfl, rfl, rfl, rfl⟩, fun a b h => ?_⟩
      rcases h with h | ⟨sp, hsp, -⟩
      · exact h
      · cases hsp
  | cons sp sps ih =>
      have hgrid' := hgrid sp List.mem_cons_self
      obtain ⟨v₁, hdraw, hdrawn⟩ := exists_videoDraw hgrid'.2.2 hint
      have hfb : (fbDraw f sp).current = f.current := by
        unfold fbDraw
        split <;> rfl
      have hcur' : (fbDraw f sp).current = v₁.current := by
        rw [hfb, hdrawn.same.current, hcur]
      have hrest : ∀ sp' ∈ sps, sp'.OnGrid v₁.width := fun sp' hsp' => by
        rw [hdrawn.same.width]
        exact hgrid sp' (List.mem_cons_of_mem _ hsp')
      obtain ⟨v', hfold, hsame, hall⟩ := ih hcur' hrest
        (by rwa [hdrawn.same.width, hdrawn.same.height])
      refine ⟨v', ?_, hdrawn.same.trans hsame, fun a b h => hall a b ?_⟩
      · rw [List.foldlM_cons, hdraw]
        exact hfold
      · rcases h with h | ⟨sp', hsp', hvis, hp⟩
        · exact Or.inl (hdrawn.agrees h hcur hgrid')
        · rcases List.mem_cons.1 hsp' with rfl | hin
          · exact Or.inl (hdrawn.agrees_self hcur hvis hp.1 hp.2)
          · exact Or.inr ⟨sp', hin, by rwa [hfb], hp⟩

end Sprites

/-! ## The picture of a terminal -/

/-- A render, with sprites that fit their fields. -/
theorem ttyRenderVideo_eq {showCursor : Bool} {t : Tty} {v : Video} (hx : t.columns * 8 ≤ 2 ^ 16)
    (hy : t.lines * 16 ≤ 2 ^ 16) (hd : t.display < 2 ^ 4) :
    ttyRenderVideo showCursor t v = ((ttySprites showCursor t).foldlM videoDraw v).map fun v =>
      ({ t with dirty := fill 0 t.size 0 t.dirty }, v) := by
  have hmap : (ttySprites showCursor t).map Sprite.packed = ttySprites showCursor t := by
    conv_rhs => rw [← List.map_id (ttySprites showCursor t)]
    exact List.map_congr_left fun sp hsp => packed_eq hx hy hd hsp
  rw [ttyRenderVideo, hmap, videoWrite]

theorem ttySprites_onGrid {showCursor : Bool} {t : Tty} {width : ℕ} (hw : t.columns * 8 ≤ width)
    {sp : Sprite} (hsp : sp ∈ ttySprites showCursor t) : sp.OnGrid width := by
  rcases mem_ttySprites.1 hsp with ⟨y, -, x, hx, -, k, -, rfl⟩
  exact ⟨⟨x, Nat.mul_comm x 8⟩, ⟨2 * y + k, by simp only; omega⟩, by simp only; omega⟩

/-- Between two calls, `f` being the numbers of the textures on the screen `v`. -/
structure PictureInv (font : ℕ → UInt8) (textures : ℕ → Texture) (showCursor : Bool) (k : TtyDev)
    (width height : ℕ) (t : Tty) (f : Fb) (v : Video) : Prop where
  redraw : RedrawInv showCursor k (height / 16) (width / 8) t f
  current : f.current = v.current
  loaded : v.textures = fontLoad font textures
  width : v.width = width
  height : v.height = height
  cells : ∀ y < t.lines, ∀ x < t.columns, t.dirty (t.columns * y + x) ≠ 0 ∨
    ∀ h < 2, Agrees f v x (2 * y + h)

section Picture

variable {font : ℕ → UInt8} {textures : ℕ → Texture} {showCursor : Bool} {k : TtyDev}
  {width height : ℕ} {t t' : Tty} {f : Fb} {v : Video}

/-- A byte keeps it. -/
theorem PictureInv.putc {ch : UInt8} (h : PictureInv font textures showCursor k width height t f v)
    (hput : PutcTo t ch t') : PictureInv font textures showCursor k width height t' f v := by
  have hsame := hput.same
  refine ⟨h.redraw.putc hput, h.current, h.loaded, h.width, h.height, fun y hy x hx => ?_⟩
  rw [hsame.lines] at hy
  rw [hsame.columns] at hx ⊢
  have hkeep : KeepsMarks showCursor t t' := hput.keepsMarks h.redraw.wf
  rcases hkeep (t.columns * y + x) (h.redraw.cell_lt hy hx) with hdirty | ⟨hclean, -⟩
  · exact Or.inl hdirty
  · exact Or.inr ((h.cells y hy x hx).resolve_left fun hd => hd hclean)

/-- A render draws the same sprites on both. -/
theorem PictureInv.render (h : PictureInv font textures showCursor k width height t f v)
    (hw : width ≤ 65535) (hh : height ≤ 65535) (hint : width * height ≤ 2 ^ 31) :
    ∃ v', ttyRenderVideo showCursor t v = some ((ttyRender showCursor t f).1, v') ∧
      PictureInv font textures showCursor k width height (ttyRender showCursor t f).1
        (ttyRender showCursor t f).2 v' ∧
      ∀ y < t.lines, ∀ x < t.columns, ∀ n < 2,
        Agrees (ttyRender showCursor t f).2 v' x (2 * y + n) := by
  have hcols : t.columns = width / 8 := h.redraw.same.columns
  have hlines : t.lines = height / 16 := h.redraw.same.lines
  have hd : t.display < 2 ^ 4 := by
    rw [h.redraw.same.display]
    change k.display < 2 ^ 4
    cases k <;> decide
  have hgrid : ∀ sp ∈ ttySprites showCursor t, sp.OnGrid v.width := fun sp hsp =>
    ttySprites_onGrid (by rw [h.width]; omega) hsp
  obtain ⟨v', hfold, hsame, hall⟩ := exists_agrees_foldlM h.current hgrid
    (by rwa [h.width, h.height])
  have hcells : ∀ y < t.lines, ∀ x < t.columns, ∀ n < 2,
      Agrees (ttyRender showCursor t f).2 v' x (2 * y + n) := by
    intro y hy x hx n hn
    refine hall x (2 * y + n) ?_
    rcases h.cells y hy x hx with hdirty | hold
    · -- the sprite of this half
      refine Or.inr ⟨_, mem_ttySprites.2 ⟨y, hy, x, hx, hdirty, n, hn, rfl⟩, ⟨Nat.succ_pos _,
        h.redraw.display⟩, Nat.mul_comm x 8, ?_⟩
      simp only
      omega
    · exact Or.inl (hold n hn)
  refine ⟨v', ?_, ⟨h.redraw.render, ?_, hsame.textures.trans h.loaded, hsame.width.trans h.width,
    hsame.height.trans h.height, fun y hy x hx => Or.inr (hcells y hy x hx)⟩, hcells⟩
  · rw [ttyRenderVideo_eq (by omega) (by omega) hd, hfold]
    rfl
  · rw [ttyRender_current, hsame.current, h.current]

/-- What a render leaves on the screen. -/
theorem PictureInv.showsText (h : PictureInv font textures showCursor k width height t f v)
    (hw : width ≤ 65535) (hh : height ≤ 65535) (hint : width * height ≤ 2 ^ 31) :
    ∃ t' v', ttyRenderVideo showCursor t v = some (t', v') ∧ ShowsText font showCursor t v' := by
  rcases h.render hw hh hint with ⟨v', hrender, h', hcells⟩
  have hcols : t.columns = width / 8 := h.redraw.same.columns
  have hlines : t.lines = height / 16 := h.redraw.same.lines
  refine ⟨_, v', hrender, fun y hy x hx => ?_⟩
  have hrow : y / 16 < t.lines := by omega
  have hcol : x / 8 < t.columns := by omega
  have hhalf : y % 16 / 8 < 2 := by omega
  have hpixel := hcells (y / 16) hrow (x / 8) hcol (y % 16 / 8) hhalf (x % 8) (by omega) (y % 8)
    (by omega) (by rw [h'.width]; omega) (by rw [h'.height]; omega)
  have hdrawn := (h.redraw.render_drawn hrow hcol).half hhalf
  rw [show 8 * (x / 8) + x % 8 = x by omega,
    show 8 * (2 * (y / 16) + y % 16 / 8) + y % 8 = y by omega,
    show 8 * (x / 8) = x / 8 * 8 by omega,
    show 8 * (2 * (y / 16) + y % 16 / 8) = y / 16 * 16 + 8 * (y % 16 / 8) by omega, hdrawn,
    h'.loaded, fontLoad_apply (Nat.lt_succ_of_le (glyph_le _)) hhalf (by omega) (by omega)] at hpixel
  rw [hpixel]
  exact congrArg (fontPixel font _ _) (by omega)

/-- A call returns, and keeps it. -/
theorem PictureInv.step (h : PictureInv font textures showCursor k width height t f v)
    (hw : width ≤ 65535) (hh : height ≤ 65535) (hint : width * height ≤ 2 ^ 31)
    (hl : 1 ≤ height / 16) (hc : 2 ≤ width / 8) (op : TtyOp) :
    ∃ t' f' v', op.runVideo showCursor (t, v) = some (t', v') ∧
      PictureInv font textures showCursor k width height t' f' v' := by
  cases op with
  | putc ch =>
      rcases ttyPutc_cases h.redraw.wf ch with ⟨t', hput, hcase⟩ | ⟨-, hone⟩
      · refine ⟨t', f, v, ?_, h.putc hcase⟩
        rw [TtyOp.runVideo, hput]
        rfl
      · have hmul : 2 * 1 ≤ width / 8 * (height / 16) := Nat.mul_le_mul hc hl
        rw [h.redraw.size] at hone
        omega
  | render =>
      obtain ⟨v', hrender, h', -⟩ := h.render hw hh hint
      exact ⟨_, _, v', hrender, h'⟩

theorem PictureInv.run (h : PictureInv font textures showCursor k width height t f v)
    (hw : width ≤ 65535) (hh : height ≤ 65535) (hint : width * height ≤ 2 ^ 31)
    (hl : 1 ≤ height / 16) (hc : 2 ≤ width / 8) (ops : List TtyOp) :
    ∃ t' f' v', runVideoOps showCursor ops (t, v) = some (t', v') ∧
      PictureInv font textures showCursor k width height t' f' v' := by
  induction ops generalizing t f v with
  | nil => exact ⟨t, f, v, rfl, h⟩
  | cons op ops ih =>
      rcases h.step hw hh hint hl hc op with ⟨t₁, f₁, v₁, hrun, h₁⟩
      rcases ih h₁ with ⟨t', f', v', hrun', h'⟩
      refine ⟨t', f', v', ?_, h'⟩
      rw [runVideoOps, hrun]
      exact hrun'

end Picture

/-- Once a terminal was drawn in full, after any bytes and renders, the next render leaves every
pixel of its text area as the font has it, whatever was on the screen before. -/
theorem render_shows_text {font : ℕ → UInt8} {textures : ℕ → Texture} {showCursor : Bool}
    {k : TtyDev} {width height : ℕ} (hw : width ≤ 65535) (hh : height ≤ 65535)
    (hint : width * height ≤ 2 ^ 31) (hl : 1 ≤ height / 16) (hc : 2 ≤ width / 8) {t₀ : Tty}
    {v₀ : Video} (hwf : t₀.Wf)
    (hscreen : SameScreen (ttyInit k.display (height / 16) (width / 8)) t₀)
    (hcur : v₀.current = k.display) (hvw : v₀.width = width) (hvh : v₀.height = height)
    (hfont : v₀.textures = fontLoad font textures) :
    ∃ t₁ v₁, fullRedrawVideo showCursor t₀ v₀ = some (t₁, v₁) ∧
      ∀ ops, ∃ t v t' v', runVideoOps showCursor ops (t₁, v₁) = some (t, v) ∧
        ttyRenderVideo showCursor t v = some (t', v') ∧ ShowsText font showCursor t v' := by
  obtain ⟨t₀', hmark, hredraw, -⟩ := redrawInv_markAll (f := ⟨k.display, fun _ => 0⟩) showCursor
    hwf hscreen rfl
  rcases ttyMarkAll_marks hwf hmark with ⟨-, -, hmarks⟩
  have h₀ : PictureInv font textures showCursor k width height t₀' ⟨k.display, fun _ => 0⟩ v₀ :=
    ⟨hredraw, hcur.symm, hfont, hvw, hvh, fun y hy x hx =>
      Or.inl (hmarks _ (hredraw.cell_lt hy hx))⟩
  obtain ⟨v₁, hrender, h₁, -⟩ := h₀.render hw hh hint
  refine ⟨_, v₁, by rw [fullRedrawVideo, hmark]; exact hrender, fun ops => ?_⟩
  obtain ⟨t, f, v, hrun, h⟩ := h₁.run hw hh hint hl hc ops
  obtain ⟨t', v', hlast, hshow⟩ := h.showsText hw hh hint
  exact ⟨t, v, t', v', hrun, hlast, hshow⟩

/-- A font of stripes on a screen of 640 x 480 pixels, after a character, a render and a line
feed. -/
theorem render_shows_text_stripes : ∃ t₁ v₁ t v t' v',
    fullRedrawVideo true (ttyInit 0 30 80)
      ⟨0, fontLoad (fun i => i.toUInt8) fun _ _ => 0, 640, 480, fun _ => ⟨0, 0, 0⟩⟩ =
        some (t₁, v₁) ∧
      runVideoOps true [.putc 'a'.toUInt8, .render, .putc '\n'.toUInt8] (t₁, v₁) = some (t, v) ∧
      ttyRenderVideo true t v = some (t', v') ∧ ShowsText (fun i => i.toUInt8) true t v' := by
  obtain ⟨t₁, v₁, hfull, hops⟩ := @render_shows_text (fun i => i.toUInt8) (fun _ _ => 0) true
    .tty1 640 480 (by decide) (by decide) (by decide) (by decide) (by decide) (ttyInit 0 30 80)
    ⟨0, fontLoad (fun i => i.toUInt8) fun _ _ => 0, 640, 480, fun _ => ⟨0, 0, 0⟩⟩
    (ttyInit_wf 0 (by decide) (by decide)) ⟨rfl, rfl, rfl, rfl⟩ rfl rfl rfl (by simp only)
  obtain ⟨t, v, t', v', hrun, hlast, hshow⟩ :=
    hops [.putc 'a'.toUInt8, .render, .putc '\n'.toUInt8]
  exact ⟨t₁, v₁, t, v, t', v', hfull, hrun, hlast, hshow⟩

end OsLab
