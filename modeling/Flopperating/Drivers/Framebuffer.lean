/-
# Lines and circles

`framebuffer_draw_line` and `framebuffer_draw_circle` of `src/drivers/vga/framebuffer.c`.  Drawn is a
list of points, in the order in which `framebuffer_put_pixel` is called; the color is left out.

| source | here |
| --- | --- |
| the value of an `int` expression | `int32`, which is `none` where it overflows |
| `while (1)`, `while (x >= y)` | a number of rounds, and `none` behind the last one |
| `a / 2` | `Int.tdiv`, which rounds towards zero |

Of a line, the two directions differ only in the sign of `err`: with `e = err` or `e = -err` a round
goes one further in the long direction, and in the short one where `e < short` (`Balanced`,
`traces_of_rounds`).  Of a circle, `err` is `x ^ 2 + y ^ 2 - r ^ 2 + 2 * y` in every round
(`CircleInv`).
-/

import Mathlib.Algebra.Order.Group.Abs
import Mathlib.Algebra.Order.Ring.Abs
import Mathlib.Tactic.Linarith
import Mathlib.Tactic.Ring

namespace Flopperating

/-- A value of type `int`. -/
def int32 (v : ℤ) : Option ℤ := if -2 ^ 31 ≤ v ∧ v < 2 ^ 31 then some v else none

theorem int32_eq {v : ℤ} (hlow : -2 ^ 31 ≤ v) (hhigh : v < 2 ^ 31) : int32 v = some v := if_pos ⟨hlow, hhigh⟩

/-! ### Lines -/

/-- `abs` of `src/lib/flopmath.c`. -/
def absInt (x : ℤ) : Option ℤ := if x < 0 then int32 (-x) else some x

/-- The loop of `framebuffer_draw_line`. -/
def lineFrom (dx dy sx sy x2 y2 : ℤ) : ℕ → ℤ → ℤ → ℤ → Option (List (ℤ × ℤ))
  | 0, _, _, _ => none
  | rounds + 1, x1, y1, err =>
    if x1 = x2 ∧ y1 = y2 then some [(x1, y1)]
    else do
      let err' ← if err > -dx then int32 (err - dy) else some err
      let x1' ← if err > -dx then int32 (x1 + sx) else some x1
      let err'' ← if err < dy then int32 (err' + dx) else some err'
      let y1' ← if err < dy then int32 (y1 + sy) else some y1
      (lineFrom dx dy sx sy x2 y2 rounds x1' y1' err'').map ((x1, y1) :: ·)

/-- `framebuffer_draw_line`. -/
def framebufferDrawLine (rounds : ℕ) (x1 y1 x2 y2 : ℤ) : Option (List (ℤ × ℤ)) := do
  let dx ← (int32 (x2 - x1)).bind absInt
  let dy ← (int32 (y2 - y1)).bind absInt
  lineFrom dx dy (if x1 < x2 then 1 else -1) (if y1 < y2 then 1 else -1) x2 y2 rounds x1 y1
    ((if dx > dy then dx else -dy).tdiv 2)

/-- A point is not further than one unit of the shorter direction from the ideal line; the
distance is multiplied by the length of the line in the longer direction. -/
def NearLine (x1 y1 x2 y2 : ℤ) (p : ℤ × ℤ) : Prop :=
  |(p.2 - y1) * (x2 - x1) - (p.1 - x1) * (y2 - y1)| ≤ max |x2 - x1| |y2 - y1|

/-- The points go from the point `p` to the point `q` in `m` steps, all near. -/
structure Traces (near : ℤ × ℤ → Prop) (p q : ℤ × ℤ) (m : ℕ) (points : List (ℤ × ℤ)) : Prop where
  length : points.length = m + 1
  first : points.head? = some p
  last : points.getLast? = some q
  steps : points.IsChain fun a b => |b.1 - a.1| ≤ 1 ∧ |b.2 - a.2| ≤ 1
  near : ∀ a ∈ points, near a

variable {near : ℤ × ℤ → Prop} {p p' q : ℤ × ℤ} {points : List (ℤ × ℤ)} {m : ℕ}
  {long short n k e dx dy sx sy x1 y1 x2 y2 : ℤ}

theorem Traces.single (h : near p) : Traces near p p 0 [p] where
  length := rfl
  first := rfl
  last := rfl
  steps := .singleton p
  near a ha := by
    rw [List.mem_singleton.1 ha]
    exact h

theorem Traces.cons (h : Traces near p' q m points) (hx : |p'.1 - p.1| ≤ 1) (hy : |p'.2 - p.2| ≤ 1) (hp : near p) :
    Traces near p q (m + 1) (p :: points) := by
  rcases points with - | ⟨a, points⟩
  · exact absurd h.first (Option.some_ne_none _).symm
  · obtain rfl : a = p' := Option.some.inj h.first
    exact {
      length := congrArg (· + 1) h.length
      first := rfl
      last := (List.getLast?_cons_cons).trans h.last
      steps := .cons_cons ⟨hx, hy⟩ h.steps
      near := fun b hb => by
        rcases List.mem_cons.1 hb with rfl | hb
        · exact hp
        · exact h.near b hb }

/-- After `n` steps in the long direction and `k` in the short one the error is `e`. -/
structure Balanced (long short n k e : ℤ) : Prop where
  nonneg : 0 ≤ e
  lt : e < long
  eq : e = long / 2 - n * short + k * long
  within : 0 ≤ k ∧ k ≤ n

theorem Balanced.init (h : 0 < long) : Balanced long short 0 0 (long / 2) where
  nonneg := by omega
  lt := by omega
  eq := by ring
  within := ⟨le_rfl, le_rfl⟩

/-- A step in both directions. -/
theorem Balanced.both (h : Balanced long short n k e) (hle : short ≤ long) (hlt : e < short) :
    Balanced long short (n + 1) (k + 1) (e - short + long) where
  nonneg := by have := h.nonneg; omega
  lt := by omega
  eq := by rw [h.eq]; ring
  within := by have := h.within; omega

/-- A step in the long direction alone. -/
theorem Balanced.one (h : Balanced long short n k e) (hshort : 0 ≤ short) (hge : short ≤ e) :
    Balanced long short (n + 1) k (e - short) where
  nonneg := by omega
  lt := by have := h.lt; omega
  eq := by rw [h.eq]; ring
  within := by have := h.within; omega

/-- **Both directions are at their ends together.** -/
theorem Balanced.end_eq (h : Balanced long short long k e) : k = short := by
  have hnonneg := h.nonneg
  have hlt := h.lt
  have heq : e = long / 2 + (k - short) * long := by rw [h.eq]; ring
  have hpos : 0 < long := by omega
  rcases lt_trichotomy k short with hless | rfl | hmore
  · have : (k - short) * long ≤ -1 * long := mul_le_mul_of_nonneg_right (by omega) hpos.le
    omega
  · rfl
  · have : 1 * long ≤ (k - short) * long := mul_le_mul_of_nonneg_right (by omega) hpos.le
    omega

/-- The point is less than one unit away from the line. -/
theorem Balanced.close (h : Balanced long short n k e) : |k * long - n * short| ≤ long := by
  have heq : k * long - n * short = e - long / 2 := by rw [h.eq]; ring
  have hnonneg := h.nonneg
  have hlt := h.lt
  rw [heq, abs_le]
  omega

/-- **A line in steps**: rounds that go one further in the long direction, and in the short one where the
error is below `short`, trace it. -/
theorem traces_of_rounds (draw : ℕ → ℤ → ℤ → ℤ → Option (List (ℤ × ℤ))) (point : ℤ → ℤ → ℤ × ℤ)
    (hshort : 0 ≤ short) (hle : short ≤ long)
    (hnear : ∀ n k e, Balanced long short n k e → near (point n k))
    (hstep : ∀ n k k', |k' - k| ≤ 1 →
      |(point (n + 1) k').1 - (point n k).1| ≤ 1 ∧ |(point (n + 1) k').2 - (point n k).2| ≤ 1)
    (hend : ∀ e, draw 1 long short e = some [point long short])
    (hboth : ∀ m n k e, Balanced long short n k e → n < long → e < short →
      draw (m + 1) n k e = (draw m (n + 1) (k + 1) (e - short + long)).map (point n k :: ·))
    (hone : ∀ m n k e, Balanced long short n k e → n < long → short ≤ e →
      draw (m + 1) n k e = (draw m (n + 1) k (e - short)).map (point n k :: ·))
    (hm : n + m = long) (hB : Balanced long short n k e) :
    ∃ points, draw (m + 1) n k e = some points ∧ Traces near (point n k) (point long short) m points := by
  induction m generalizing n k e with
  | zero =>
    obtain rfl : n = long := by simpa using hm
    obtain rfl := hB.end_eq
    exact ⟨_, hend e, .single (hnear _ _ _ hB)⟩
  | succ m ih =>
    have hrest : n + 1 + m = long := by
      push_cast at hm
      omega
    rcases lt_or_ge e short with hlt | hge
    · obtain ⟨points, hrun, htraces⟩ := ih hrest (hB.both hle hlt)
      have hnext := hstep n k (k + 1) (by rw [add_sub_cancel_left, abs_one])
      rw [hboth _ _ _ _ hB (by omega) hlt, hrun]
      exact ⟨_, rfl, htraces.cons hnext.1 hnext.2 (hnear _ _ _ hB)⟩
    · obtain ⟨points, hrun, htraces⟩ := ih hrest (hB.one hshort hge)
      have hnext := hstep n k k (by rw [sub_self, abs_zero]; exact zero_le_one)
      rw [hone _ _ _ _ hB (by omega) hge, hrun]
      exact ⟨_, rfl, htraces.cons hnext.1 hnext.2 (hnear _ _ _ hB)⟩

/-- The ends of a line, by its extent and direction. -/
structure LineEnds (dx dy sx sy x1 y1 x2 y2 : ℤ) : Prop where
  x : x2 = x1 + sx * dx
  y : y2 = y1 + sy * dy
  sx : sx = 1 ∨ sx = -1
  sy : sy = 1 ∨ sy = -1
  dx : 0 ≤ dx ∧ dx < 2 ^ 30
  dy : 0 ≤ dy ∧ dy < 2 ^ 30
  fits : -2 ^ 29 < x1 ∧ x1 < 2 ^ 29 ∧ -2 ^ 29 < y1 ∧ y1 < 2 ^ 29

theorem abs_mul_unit {u v : ℤ} (hu : u = 1 ∨ u = -1) : |u * v| = |v| := by
  rcases hu with rfl | rfl
  · rw [one_mul]
  · rw [neg_one_mul, abs_neg]

namespace LineEnds

variable (hE : LineEnds dx dy sx sy x1 y1 x2 y2)
include hE

theorem abs_x : |x2 - x1| = dx := by
  rw [hE.x, add_sub_cancel_left, abs_mul_unit hE.sx, abs_of_nonneg hE.dx.1]

theorem abs_y : |y2 - y1| = dy := by
  rw [hE.y, add_sub_cancel_left, abs_mul_unit hE.sy, abs_of_nonneg hE.dy.1]

/-- A place on the way is an `int`. -/
theorem fits_x (hn : 0 ≤ n) (hle : n ≤ 2 ^ 30) : -2 ^ 31 ≤ x1 + sx * n ∧ x1 + sx * n < 2 ^ 31 := by
  have hfits := hE.fits
  rcases hE.sx with hs | hs <;> rw [hs] <;> omega

theorem fits_y (hn : 0 ≤ n) (hle : n ≤ 2 ^ 30) : -2 ^ 31 ≤ y1 + sy * n ∧ y1 + sy * n < 2 ^ 31 := by
  have hfits := hE.fits
  rcases hE.sy with hs | hs <;> rw [hs] <;> omega

/-- Before the end in one direction the end is not reached. -/
theorem ne_of_x_lt (hlt : n < dx) (y : ℤ) : ¬ (x1 + sx * n = x2 ∧ y = y2) := by
  rintro ⟨hx, -⟩
  rw [hE.x] at hx
  rcases hE.sx with hs | hs <;> rw [hs] at hx <;> omega

theorem ne_of_y_lt (hlt : n < dy) (x : ℤ) : ¬ (x = x2 ∧ y1 + sy * n = y2) := by
  rintro ⟨-, hy⟩
  rw [hE.y] at hy
  rcases hE.sy with hs | hs <;> rw [hs] at hy <;> omega

/-- A step of one unit, or of none. -/
theorem step_x {i j : ℤ} (h : |j - i| ≤ 1) : |x1 + sx * j - (x1 + sx * i)| ≤ 1 := by
  have hrest : x1 + sx * j - (x1 + sx * i) = sx * (j - i) := by ring
  rwa [hrest, abs_mul_unit hE.sx]

theorem step_y {i j : ℤ} (h : |j - i| ≤ 1) : |y1 + sy * j - (y1 + sy * i)| ≤ 1 := by
  have hrest : y1 + sy * j - (y1 + sy * i) = sy * (j - i) := by ring
  rwa [hrest, abs_mul_unit hE.sy]

/-- The distance of a point `i` and `j` steps away. -/
theorem distance (i j : ℤ) :
    |(y1 + sy * j - y1) * (x2 - x1) - (x1 + sx * i - x1) * (y2 - y1)| = |j * dx - i * dy| := by
  have hrest : (y1 + sy * j - y1) * (x2 - x1) - (x1 + sx * i - x1) * (y2 - y1) = sx * (sy * (j * dx - i * dy)) := by
    rw [hE.x, hE.y]
    ring
  rw [hrest, abs_mul_unit hE.sx, abs_mul_unit hE.sy]

end LineEnds

section Rounds

variable {x y err : ℤ} {rounds : ℕ}

/-- A round that goes on in both directions. -/
theorem lineFrom_both (hne : ¬ (x = x2 ∧ y = y2)) (hx : err > -dx) (hy : err < dy)
    (herr : -2 ^ 31 ≤ err - dy ∧ err - dy < 2 ^ 31) (herr' : -2 ^ 31 ≤ err - dy + dx ∧ err - dy + dx < 2 ^ 31)
    (hfx : -2 ^ 31 ≤ x + sx ∧ x + sx < 2 ^ 31) (hfy : -2 ^ 31 ≤ y + sy ∧ y + sy < 2 ^ 31) :
    lineFrom dx dy sx sy x2 y2 (rounds + 1) x y err =
      (lineFrom dx dy sx sy x2 y2 rounds (x + sx) (y + sy) (err - dy + dx)).map ((x, y) :: ·) := by
  rw [lineFrom, if_neg hne]
  simp only [if_pos hx, if_pos hy, int32_eq herr.1 herr.2, int32_eq herr'.1 herr'.2, int32_eq hfx.1 hfx.2,
    int32_eq hfy.1 hfy.2, Option.bind_eq_bind, Option.bind_some]

/-- A round that goes on in the direction of `x` alone. -/
theorem lineFrom_x (hne : ¬ (x = x2 ∧ y = y2)) (hx : err > -dx) (hy : dy ≤ err)
    (herr : -2 ^ 31 ≤ err - dy ∧ err - dy < 2 ^ 31) (hfx : -2 ^ 31 ≤ x + sx ∧ x + sx < 2 ^ 31) :
    lineFrom dx dy sx sy x2 y2 (rounds + 1) x y err =
      (lineFrom dx dy sx sy x2 y2 rounds (x + sx) y (err - dy)).map ((x, y) :: ·) := by
  rw [lineFrom, if_neg hne]
  simp only [if_pos hx, if_neg (not_lt.2 hy), int32_eq herr.1 herr.2, int32_eq hfx.1 hfx.2, Option.bind_eq_bind,
    Option.bind_some]

/-- A round that goes on in the direction of `y` alone. -/
theorem lineFrom_y (hne : ¬ (x = x2 ∧ y = y2)) (hx : err ≤ -dx) (hy : err < dy)
    (herr : -2 ^ 31 ≤ err + dx ∧ err + dx < 2 ^ 31) (hfy : -2 ^ 31 ≤ y + sy ∧ y + sy < 2 ^ 31) :
    lineFrom dx dy sx sy x2 y2 (rounds + 1) x y err =
      (lineFrom dx dy sx sy x2 y2 rounds x (y + sy) (err + dx)).map ((x, y) :: ·) := by
  rw [lineFrom, if_neg hne]
  simp only [if_neg (not_lt.2 hx), if_pos hy, int32_eq herr.1 herr.2, int32_eq hfy.1 hfy.2, Option.bind_eq_bind,
    Option.bind_some]

theorem lineFrom_end : lineFrom dx dy sx sy x2 y2 (rounds + 1) x2 y2 err = some [(x2, y2)] := by
  rw [lineFrom, if_pos ⟨rfl, rfl⟩]

end Rounds

/-- **A flat line**: every round goes on in the direction of `x`. -/
theorem lineFrom_flat (hE : LineEnds dx dy sx sy x1 y1 x2 y2) (hlt : dy < dx) (hm : n + m = dx) (hB : Balanced dx dy n k e) :
    ∃ points, lineFrom dx dy sx sy x2 y2 (m + 1) (x1 + sx * n) (y1 + sy * k) e = some points ∧
      Traces (NearLine x1 y1 x2 y2) (x1 + sx * n, y1 + sy * k) (x1 + sx * dx, y1 + sy * dy) m points := by
  have hdx := hE.dx
  have hdy := hE.dy
  refine traces_of_rounds
    (fun rounds i j e => lineFrom dx dy sx sy x2 y2 rounds (x1 + sx * i) (y1 + sy * j) e)
    (fun i j => (x1 + sx * i, y1 + sy * j)) hdy.1 hlt.le ?_ ?_ ?_ ?_ ?_ hm hB
  · intro i j f h
    show |_| ≤ _
    rw [hE.distance, hE.abs_x, hE.abs_y]
    exact h.close.trans (le_max_left _ _)
  · exact fun i j j' h => ⟨hE.step_x (by rw [add_sub_cancel_left, abs_one]), hE.step_y h⟩
  · intro f
    rw [← hE.x, ← hE.y]
    exact lineFrom_end
  · intro m i j f h hi hf
    have hnonneg := h.nonneg
    have hwithin := h.within
    have hx : x1 + sx * i + sx = x1 + sx * (i + 1) := by ring
    have hy : y1 + sy * j + sy = y1 + sy * (j + 1) := by ring
    have hfx := hE.fits_x (n := i + 1) (by omega) (by omega)
    have hfy := hE.fits_y (n := j + 1) (by omega) (by omega)
    rw [← hx] at hfx
    rw [← hy] at hfy
    show lineFrom _ _ _ _ _ _ _ _ _ _ = _
    rw [lineFrom_both (hE.ne_of_x_lt hi _) (by omega) hf (by omega) (by omega) hfx hfy, hx, hy]
  · intro m i j f h hi hf
    have hless := h.lt
    have hwithin := h.within
    have hx : x1 + sx * i + sx = x1 + sx * (i + 1) := by ring
    have hfx := hE.fits_x (n := i + 1) (by omega) (by omega)
    rw [← hx] at hfx
    show lineFrom _ _ _ _ _ _ _ _ _ _ = _
    rw [lineFrom_x (hE.ne_of_x_lt hi _) (by omega) hf (by omega) hfx, hx]

/-- **A steep line**: every round goes on in the direction of `y`. -/
theorem lineFrom_steep (hE : LineEnds dx dy sx sy x1 y1 x2 y2) (hle : dx ≤ dy) (hm : n + m = dy) (hB : Balanced dy dx n k e) :
    ∃ points, lineFrom dx dy sx sy x2 y2 (m + 1) (x1 + sx * k) (y1 + sy * n) (-e) = some points ∧
      Traces (NearLine x1 y1 x2 y2) (x1 + sx * k, y1 + sy * n) (x1 + sx * dx, y1 + sy * dy) m points := by
  have hdx := hE.dx
  have hdy := hE.dy
  refine traces_of_rounds
    (fun rounds i j e => lineFrom dx dy sx sy x2 y2 rounds (x1 + sx * j) (y1 + sy * i) (-e))
    (fun i j => (x1 + sx * j, y1 + sy * i)) hdx.1 hle ?_ ?_ ?_ ?_ ?_ hm hB
  · intro i j f h
    show |_| ≤ _
    rw [hE.distance, hE.abs_x, hE.abs_y, abs_sub_comm]
    exact h.close.trans (le_max_right _ _)
  · exact fun i j j' h => ⟨hE.step_x h, hE.step_y (by rw [add_sub_cancel_left, abs_one])⟩
  · intro f
    rw [← hE.x, ← hE.y]
    exact lineFrom_end
  · intro m i j f h hi hf
    have hnonneg := h.nonneg
    have hwithin := h.within
    have hx : x1 + sx * j + sx = x1 + sx * (j + 1) := by ring
    have hy : y1 + sy * i + sy = y1 + sy * (i + 1) := by ring
    have herr : -f - dy + dx = -(f - dx + dy) := by ring
    have hfx := hE.fits_x (n := j + 1) (by omega) (by omega)
    have hfy := hE.fits_y (n := i + 1) (by omega) (by omega)
    rw [← hx] at hfx
    rw [← hy] at hfy
    show lineFrom _ _ _ _ _ _ _ _ _ _ = _
    rw [lineFrom_both (hE.ne_of_y_lt hi _) (by omega) (by omega) (by omega) (by omega) hfx hfy, hx, hy, herr]
  · intro m i j f h hi hf
    have hless := h.lt
    have hwithin := h.within
    have hy : y1 + sy * i + sy = y1 + sy * (i + 1) := by ring
    have herr : -f + dx = -(f - dx) := by ring
    have hfy := hE.fits_y (n := i + 1) (by omega) (by omega)
    rw [← hy] at hfy
    show lineFrom _ _ _ _ _ _ _ _ _ _ = _
    rw [lineFrom_y (hE.ne_of_y_lt hi _) (by omega) (by omega) (by omega) hfy, hy, herr]

theorem absInt_eq {v : ℤ} (hlow : -2 ^ 30 < v) : absInt v = some |v| := by
  unfold absInt
  split_ifs with hneg
  · rw [int32_eq (by omega) (by omega), abs_of_neg hneg]
  · rw [abs_of_nonneg (not_lt.1 hneg)]

theorem lineEnds (hx1 : |x1| < 2 ^ 29) (hy1 : |y1| < 2 ^ 29) (hx2 : |x2| < 2 ^ 29) (hy2 : |y2| < 2 ^ 29) :
    LineEnds |x2 - x1| |y2 - y1| (if x1 < x2 then 1 else -1) (if y1 < y2 then 1 else -1) x1 y1 x2 y2 := by
  rw [abs_lt] at hx1 hy1 hx2 hy2
  exact {
    x := by
      split_ifs with h
      · rw [abs_of_pos (by omega)]
        ring
      · rw [abs_of_nonpos (by omega)]
        ring
    y := by
      split_ifs with h
      · rw [abs_of_pos (by omega)]
        ring
      · rw [abs_of_nonpos (by omega)]
        ring
    sx := by split_ifs <;> simp
    sy := by split_ifs <;> simp
    dx := ⟨abs_nonneg _, abs_lt.2 (by omega)⟩
    dy := ⟨abs_nonneg _, abs_lt.2 (by omega)⟩
    fits := by omega }

/-- **A line is drawn from one end to the other**, in as many steps as it is long, without overflow
and near the ideal line. -/
theorem framebufferDrawLine_traces (hx1 : |x1| < 2 ^ 29) (hy1 : |y1| < 2 ^ 29) (hx2 : |x2| < 2 ^ 29)
    (hy2 : |y2| < 2 ^ 29) :
    ∃ points, framebufferDrawLine ((max |x2 - x1| |y2 - y1|).toNat + 1) x1 y1 x2 y2 = some points ∧
      Traces (NearLine x1 y1 x2 y2) (x1, y1) (x2, y2) (max |x2 - x1| |y2 - y1|).toNat points := by
  have hE := lineEnds hx1 hy1 hx2 hy2
  have hdx := hE.dx
  have hdy := hE.dy
  have hrun : ∀ rounds, framebufferDrawLine rounds x1 y1 x2 y2 = lineFrom |x2 - x1| |y2 - y1|
      (if x1 < x2 then 1 else -1) (if y1 < y2 then 1 else -1) x2 y2 rounds x1 y1
      ((if |x2 - x1| > |y2 - y1| then |x2 - x1| else -|y2 - y1|).tdiv 2) := by
    intro rounds
    rw [abs_lt] at hdx hdy
    rw [framebufferDrawLine, int32_eq (by omega) (by omega), Option.bind_some, absInt_eq (by omega),
      int32_eq (by omega) (by omega), Option.bind_some, absInt_eq (by omega)]
    rfl
  rw [hrun]
  generalize |x2 - x1| = dx, |y2 - y1| = dy, (if x1 < x2 then (1 : ℤ) else -1) = sx,
    (if y1 < y2 then (1 : ℤ) else -1) = sy at *
  rcases lt_or_ge dy dx with hflat | hsteep
  · have hlong : ((max dx dy).toNat : ℤ) = dx := by
      rw [max_eq_left hflat.le, Int.toNat_of_nonneg hdx.1]
    have herr : (if dx > dy then dx else -dy).tdiv 2 = dx / 2 := by
      rw [if_pos hflat, Int.tdiv_eq_ediv_of_nonneg hdx.1]
    have hdraws := lineFrom_flat hE hflat ((zero_add _).trans hlong) (.init (by omega))
    rwa [← hE.x, ← hE.y, mul_zero, mul_zero, add_zero, add_zero, ← herr] at hdraws
  · have hlong : ((max dx dy).toNat : ℤ) = dy := by
      rw [max_eq_right hsteep, Int.toNat_of_nonneg hdy.1]
    have herr : (if dx > dy then dx else -dy).tdiv 2 = -(dy / 2) := by
      rw [if_neg (not_lt.2 hsteep), Int.neg_tdiv, Int.tdiv_eq_ediv_of_nonneg hdy.1]
    rcases eq_or_lt_of_le hdy.1 with hzero | hpos
    · have hnone : (max dx dy).toNat = 0 := by omega
      have hx := hE.x
      have hy := hE.y
      rw [← hzero, mul_zero, add_zero] at hy
      rw [show dx = 0 by omega, mul_zero, add_zero] at hx
      rw [hnone, hx, hy]
      exact ⟨_, lineFrom_end, .single (by simp [NearLine])⟩
    · have hdraws := lineFrom_steep hE hsteep ((zero_add _).trans hlong) (.init hpos)
      rwa [← hE.x, ← hE.y, mul_zero, mul_zero, add_zero, add_zero, ← herr] at hdraws

theorem framebufferDrawLine_down : ∃ points, framebufferDrawLine 6 10 10 12 5 = some points ∧
    Traces (NearLine 10 10 12 5) (10, 10) (12, 5) 5 points :=
  framebufferDrawLine_traces (by decide) (by decide) (by decide) (by decide)

example : framebufferDrawLine 6 10 10 12 5 = some [(10, 10), (10, 9), (11, 8), (11, 7), (12, 6), (12, 5)] := by decide

/-! ### Circles -/

/-- The points of a round, in the order in which they are put. -/
def reflections (xCenter yCenter x y : ℤ) : List (ℤ × ℤ) :=
  [(xCenter + x, yCenter + y), (xCenter + y, yCenter + x), (xCenter - y, yCenter + x), (xCenter - x, yCenter + y),
    (xCenter - x, yCenter - y), (xCenter - y, yCenter - x), (xCenter + y, yCenter - x), (xCenter + x, yCenter - y)]

/-- The arguments of a call of `framebuffer_put_pixel`. -/
def intPoint (p : ℤ × ℤ) : Option (ℤ × ℤ) := (int32 p.1).bind fun x => (int32 p.2).map fun y => (x, y)

/-- `2 * v + 1` -/
def twicePlusOne (v : ℤ) : Option ℤ := (int32 (2 * v)).bind fun t => int32 (t + 1)

/-- The loop of `framebuffer_draw_circle`. -/
def circleFrom (xCenter yCenter : ℤ) : ℕ → ℤ → ℤ → ℤ → Option (List (ℤ × ℤ))
  | 0, _, _, _ => none
  | rounds + 1, x, y, err =>
    if x ≥ y then do
      let points ← (reflections xCenter yCenter x y).mapM intPoint
      let y' ← if err ≤ 0 then int32 (y + 1) else some y
      let err' ← if err ≤ 0 then (twicePlusOne y').bind fun t => int32 (err + t) else some err
      let x' ← if err' > 0 then int32 (x - 1) else some x
      let err'' ← if err' > 0 then (twicePlusOne x').bind fun t => int32 (err' - t) else some err'
      (circleFrom xCenter yCenter rounds x' y' err'').map (points ++ ·)
    else some []

/-- `framebuffer_draw_circle`. -/
def framebufferDrawCircle (rounds : ℕ) (xCenter yCenter radius : ℤ) : Option (List (ℤ × ℤ)) :=
  circleFrom xCenter yCenter rounds radius 0 0

/-- An offset of the first octant, at most `2 * (x + y)` inside the circle. -/
structure OnCircle (r : ℤ) (o : ℤ × ℤ) : Prop where
  octant : 0 ≤ o.2 ∧ o.2 ≤ o.1 ∧ o.1 ≤ r
  outer : o.1 ^ 2 + o.2 ^ 2 ≤ r ^ 2
  inner : r ^ 2 - 2 * (o.1 + o.2) ≤ o.1 ^ 2 + o.2 ^ 2

/-- What holds in front of each round: the error is the one of the point, and `2 * y` more. -/
structure CircleInv (r x y err : ℤ) : Prop where
  x_le : x ≤ r
  y_nonneg : 0 ≤ y
  y_le : y ≤ r + 1
  eq : err = x ^ 2 + y ^ 2 - r ^ 2 + 2 * y
  low : -2 * x ≤ err
  high : y ≤ x → err ≤ 0

variable {r x y err xCenter yCenter : ℤ}

theorem CircleInv.init (hr : 0 ≤ r) : CircleInv r r 0 0 where
  x_le := le_rfl
  y_nonneg := le_rfl
  y_le := by omega
  eq := by ring
  low := by omega
  high _ := le_rfl

theorem CircleInv.onCircle (h : CircleInv r x y err) (hle : y ≤ x) : OnCircle r (x, y) where
  octant := ⟨h.y_nonneg, hle, h.x_le⟩
  outer := by
    have := h.eq
    have := h.high hle
    have := h.y_nonneg
    linarith
  inner := by
    have := h.eq
    have := h.low
    linarith

/-- A round in which the error stays at most `0`. -/
theorem CircleInv.up (h : CircleInv r x y err) (hle : y ≤ x) (herr : err + (2 * (y + 1) + 1) ≤ 0) :
    CircleInv r x (y + 1) (err + (2 * (y + 1) + 1)) where
  x_le := h.x_le
  y_nonneg := by have := h.y_nonneg; omega
  y_le := by have := h.x_le; omega
  eq := by rw [h.eq]; ring
  low := by have := h.low; have := h.y_nonneg; omega
  high _ := herr

/-- A round in which it does not, and `x` goes down. -/
theorem CircleInv.left (h : CircleInv r x y err) (hle : y ≤ x) (herr : 0 < err + (2 * (y + 1) + 1)) :
    CircleInv r (x - 1) (y + 1) (err + (2 * (y + 1) + 1) - (2 * (x - 1) + 1)) where
  x_le := by have := h.x_le; omega
  y_nonneg := by have := h.y_nonneg; omega
  y_le := by have := h.x_le; omega
  eq := by rw [h.eq]; ring
  low := by omega
  high _ := by have := h.high hle; omega

/-- `y` stays below the radius. -/
theorem CircleInv.y_lt (h : CircleInv r x y err) (hle : y ≤ x) (hr : r < 2 ^ 30) : y + 1 < 2 ^ 30 := by
  have hcircle := (h.onCircle hle).outer
  have hy := h.y_nonneg
  have hx := h.x_le
  have hyr : y ≤ r := hle.trans hx
  by_contra hge
  have : r ^ 2 < x ^ 2 + y ^ 2 := by
    have hry : r = y := by omega
    have hrx : r = x := by omega
    rw [← hry, ← hrx]
    nlinarith
  exact absurd hcircle (not_le.2 this)

theorem twicePlusOne_eq {v : ℤ} (hlow : -2 ^ 30 ≤ v) (hhigh : v < 2 ^ 30) : twicePlusOne v = some (2 * v + 1) := by
  rw [twicePlusOne, int32_eq (by omega) (by omega), Option.bind_some, int32_eq (by omega) (by omega)]

/-- Points whose coordinates are of type `int`. -/
theorem mapM_intPoint {points : List (ℤ × ℤ)}
    (h : ∀ p ∈ points, (-2 ^ 31 ≤ p.1 ∧ p.1 < 2 ^ 31) ∧ -2 ^ 31 ≤ p.2 ∧ p.2 < 2 ^ 31) :
    points.mapM intPoint = some points := by
  induction points with
  | nil => rfl
  | cons p points ih =>
    obtain ⟨hx, hy⟩ := h p List.mem_cons_self
    have hp : intPoint p = some p := by
      rw [intPoint, int32_eq hx.1 hx.2, int32_eq hy.1 hy.2]
      rfl
    rw [List.mapM_cons, hp, ih fun q hq => h q (List.mem_cons_of_mem p hq)]
    rfl

theorem reflections_fit (hx : |xCenter| + r < 2 ^ 30) (hy : |yCenter| + r < 2 ^ 30) (hO : OnCircle r (x, y)) :
    ∀ p ∈ reflections xCenter yCenter x y, (-2 ^ 31 ≤ p.1 ∧ p.1 < 2 ^ 31) ∧ -2 ^ 31 ≤ p.2 ∧ p.2 < 2 ^ 31 := by
  have hxc := abs_lt.1 (show |xCenter| < 2 ^ 30 - r by omega)
  have hyc := abs_lt.1 (show |yCenter| < 2 ^ 30 - r by omega)
  have hoctant : 0 ≤ y ∧ y ≤ x ∧ x ≤ r := hO.octant
  intro p hp
  simp only [reflections, List.mem_cons, List.not_mem_nil, or_false] at hp
  rcases hp with rfl | rfl | rfl | rfl | rfl | rfl | rfl | rfl <;> exact ⟨by omega, by omega⟩

/-- A round plots the reflections of its offset and goes on with the next. -/
theorem circleFrom_succ (hx : |xCenter| + r < 2 ^ 30) (hy : |yCenter| + r < 2 ^ 30) (hI : CircleInv r x y err)
    (hle : y ≤ x) (rounds : ℕ) :
    ∃ x' err', CircleInv r x' (y + 1) err' ∧ circleFrom xCenter yCenter (rounds + 1) x y err =
      (circleFrom xCenter yCenter rounds x' (y + 1) err').map (reflections xCenter yCenter x y ++ ·) := by
  have hr : r < 2 ^ 30 := by
    have := abs_nonneg xCenter
    omega
  have hylt := hI.y_lt hle hr
  have hxr := hI.x_le
  have hy0 := hI.y_nonneg
  have hlow := hI.low
  have hhigh := hI.high hle
  have hpoints := mapM_intPoint (reflections_fit hx hy (hI.onCircle hle))
  have hy' : int32 (y + 1) = some (y + 1) := int32_eq (by omega) (by omega)
  have hstep : (twicePlusOne (y + 1)).bind (fun t => int32 (err + t)) = some (err + (2 * (y + 1) + 1)) := by
    rw [twicePlusOne_eq (by omega) hylt, Option.bind_some, int32_eq (by omega) (by omega)]
  rw [circleFrom, if_pos hle]
  rcases lt_or_ge 0 (err + (2 * (y + 1) + 1)) with hleft | hup
  · have hx' : int32 (x - 1) = some (x - 1) := int32_eq (by omega) (by omega)
    have hback : (twicePlusOne (x - 1)).bind (fun t => int32 (err + (2 * (y + 1) + 1) - t)) =
        some (err + (2 * (y + 1) + 1) - (2 * (x - 1) + 1)) := by
      rw [twicePlusOne_eq (by omega) (by omega), Option.bind_some, int32_eq (by omega) (by omega)]
    refine ⟨_, _, hI.left hle hleft, ?_⟩
    simp only [hpoints, if_pos hhigh, hy', hstep, if_pos hleft, hx', hback, Option.bind_eq_bind, Option.bind_some]
  · refine ⟨_, _, hI.up hle hup, ?_⟩
    simp only [hpoints, if_pos hhigh, hy', hstep, if_neg (not_lt.2 hup), Option.bind_eq_bind, Option.bind_some]

/-- The rounds that are left plot offsets of the first octant. -/
theorem circleFrom_eq (hx : |xCenter| + r < 2 ^ 30) (hy : |yCenter| + r < 2 ^ 30) {rounds : ℕ}
    (hI : CircleInv r x y err) (hrounds : r + 1 - y < rounds) :
    ∃ offsets : List (ℤ × ℤ), circleFrom xCenter yCenter rounds x y err =
        some (offsets.flatMap fun o => reflections xCenter yCenter o.1 o.2) ∧
      offsets.length ≤ r + 1 - y ∧ ∀ o ∈ offsets, OnCircle r o := by
  induction rounds generalizing x y err with
  | zero => exact absurd hrounds (not_lt.2 (by have := hI.y_le; push_cast; omega))
  | succ rounds ih =>
    rcases lt_or_ge x y with hlt | hle
    · refine ⟨[], if_neg (not_le.2 hlt), ?_, fun o ho => absurd ho List.not_mem_nil⟩
      have := hI.y_le
      rw [List.length_nil]
      omega
    · obtain ⟨x', err', hI', hrun⟩ := circleFrom_succ hx hy hI hle rounds
      obtain ⟨offsets, hrest, hlen, hon⟩ := ih hI' (by push_cast at hrounds; omega)
      refine ⟨(x, y) :: offsets, ?_, ?_, ?_⟩
      · rw [hrun, hrest]
        rfl
      · rw [List.length_cons]
        push_cast
        omega
      · intro o ho
        rcases List.mem_cons.1 ho with rfl | ho
        · exact hI.onCircle hle
        · exact hon o ho

/-- **A circle is drawn in at most `r + 1` rounds, without overflow**, and what is plotted are the
reflections of offsets of the first octant that are on it. -/
theorem framebufferDrawCircle_onCircle (hr : 0 ≤ r) (hx : |xCenter| + r < 2 ^ 30) (hy : |yCenter| + r < 2 ^ 30) :
    ∃ offsets : List (ℤ × ℤ), framebufferDrawCircle (r.toNat + 2) xCenter yCenter r =
        some (offsets.flatMap fun o => reflections xCenter yCenter o.1 o.2) ∧
      offsets.length ≤ r + 1 ∧ ∀ o ∈ offsets, OnCircle r o := by
  obtain ⟨offsets, hrun, hlen, hon⟩ := circleFrom_eq hx hy (.init hr) (show r + 1 - 0 < (r.toNat + 2 : ℕ) by omega)
  exact ⟨offsets, hrun, by omega, hon⟩

theorem framebufferDrawCircle_five : ∃ offsets : List (ℤ × ℤ), framebufferDrawCircle 7 300 300 5 =
      some (offsets.flatMap fun o => reflections 300 300 o.1 o.2) ∧
    offsets.length ≤ (5 : ℤ) + 1 ∧ ∀ o ∈ offsets, OnCircle 5 o :=
  framebufferDrawCircle_onCircle (by decide) (by decide) (by decide)

end Flopperating
