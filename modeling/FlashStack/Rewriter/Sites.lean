/-
Where the rewriter patches, for stack sizes of any magnitude.

For a size that does not fit the fields, an occurrence of the new pattern may look like one
of the old size, and two occurrences may overlap. Then the scan still ends and patches where
it stops; but which places these are depends on the patches before. So the places are
defined by the scan itself.

* `patchSites`: the matches at which the scan stops, with their kinds. It follows the loop
  of the source, on the image as patched so far;
* `rewriteImage_sites`: the run ends, counts them, and leaves the pattern of the new size at
  each of them.

A patch changes no byte before the place where it is made, and the scan goes on behind it,
so that a later patch cannot spoil an earlier one; this is the invariant `Patches`, and the
proof is by induction on the bytes that are left. Nothing is said here about the bytes
between the sites. For the sizes of the exact result the sites are all occurrences of the
old pattern; that is not needed, and not said.
-/

import FlashStack.Rewriter

namespace FlashStack.Rewriter

open Lib.Memory Lib.Patch

/-- The matches that the loop of `modify_all_prologs_and_epilogs` patches, in order. It looks at
the image as patched so far, like the source. -/
def sitesLoop (prolog epilog : List Byte) (x : Int) (n : Nat) :
    Nat → Nat → List Byte → List (Kind × Nat)
  | 0, _, _ => []
  | fuel + 1, i, binImg =>
      if i + min epilog.length prolog.length ≤ n then
        if isMatching binImg i prolog then
          (.prolog, i) :: sitesLoop prolog epilog x n fuel (i + prolog.length)
            (writeAll binImg i (Kind.prolog.fields x))
        else if isMatching binImg i epilog then
          (.epilog, i) :: sitesLoop prolog epilog x n fuel (i + epilog.length)
            (writeAll binImg i (Kind.epilog.fields x))
        else sitesLoop prolog epilog x n fuel (i + 1) binImg
      else []

/-- The sites of one run, each with its kind, in the order in which the loop comes to them. -/
def patchSites (b : List Byte) (origX newX : Int) : List (Kind × Nat) :=
  sitesLoop (Kind.prolog.pattern origX) (Kind.epilog.pattern origX) newX b.length (b.length + 1) 0 b

def countKind (q : Kind) (sites : List (Kind × Nat)) : Nat := sites.countP (·.1 = q)

/-- A match lies inside the image. -/
theorem Kind.le_of_isMatching {q : Kind} {x : Int} {b : List Byte} {i : Nat}
    (h : isMatching b i (q.pattern x) = true) : i + q.base.length ≤ b.length := by
  have hpos := q.length_base
  have hin := ((isMatching_iff _ _ _).mp h).le_length (by rw [Kind.length_pattern]; omega)
  rwa [Kind.length_pattern] at hin

section Scan

variable {n : Nat} {x : Int} (y : Int)

/-- What the loop leaves when it starts at `i` on the image `b`. -/
structure Patches (b b' : List Byte) (i : Nat) (sites : List (Kind × Nat)) : Prop where
  before : ∀ k < i, b'[k]? = b[k]?
  patched : ∀ q j, (q, j) ∈ sites → OccursAt b' j (q.pattern y)

/-- **A match** is patched at once, and what follows starts behind it. -/
theorem Patches.hit {q : Kind} {b b' : List Byte} {i : Nat} {sites : List (Kind × Nat)}
    (hocc : OccursAt b i (q.pattern x))
    (h : Patches y (writeAll b i (q.fields y)) b' (i + q.base.length) sites) :
    Patches y b b' i ((q, i) :: sites) where
  before k hk := by
    rw [h.before k (Nat.lt_add_right _ hk), getElem?_writeAll_outside]
    exact fun hik => absurd hk (Nat.not_lt_of_le hik)
  patched q' j hmem := by
    rcases List.mem_cons.mp hmem with heq | hmem
    · obtain ⟨rfl, rfl⟩ := Prod.mk.inj heq
      have hpatched : OccursAt (writeAll b j (q'.fields y)) j (q'.pattern y) :=
        occursAt_writeAll hocc fun k => by rw [Kind.inFields_iff, Kind.inFields_iff]
      refine hpatched.congr fun k _ hk => h.before k ?_
      rwa [Kind.length_pattern] at hk
    · exact h.patched q' j hmem

/-- **The loop** ends, counts its sites, touches nothing before `i`, and leaves the pattern for
`y` at every site. -/
theorem modifyLoop_sites (fuel : Nat) : ∀ (i proCnt epiCnt : Nat) (b : List Byte),
    b.length = n → i ≤ n → n < i + fuel →
      ∃ b' sites, sites = sitesLoop (Kind.prolog.pattern x) (Kind.epilog.pattern x) y n fuel i b ∧
        modifyLoop (Kind.prolog.pattern x) (Kind.epilog.pattern x) y n fuel i b proCnt epiCnt =
          some (b', proCnt + countKind .prolog sites, epiCnt + countKind .epilog sites) ∧
        Patches y b b' i sites := by
  have hmin : min (Kind.epilog.pattern x).length (Kind.prolog.pattern x).length = 29 := by
    rw [Kind.length_pattern, Kind.length_pattern]
    decide
  induction fuel with
  | zero => intro i _ _ b _ hle hfuel; omega
  | succ fuel ih =>
      intro i proCnt epiCnt b hlength hle hfuel
      rw [modifyLoop, sitesLoop, hmin]
      by_cases hroom : i + 29 ≤ n
      · rw [if_pos hroom, if_pos hroom]
        by_cases hpro : isMatching b i (Kind.prolog.pattern x) = true
        · have hin := Kind.le_of_isMatching hpro
          have hbase := Kind.prolog.length_base
          obtain ⟨b', sites, hsites, hrun, hpatches⟩ := ih (i + Kind.prolog.base.length)
            (proCnt + 1) epiCnt (writeAll b i (Kind.prolog.fields y))
            ((length_writeAll _ _ _).trans hlength) (by omega) (by omega)
          refine ⟨b', (.prolog, i) :: sites, ?_, ?_,
            hpatches.hit y ((isMatching_iff _ _ _).mp hpro)⟩
          · rw [if_pos hpro, Kind.length_pattern, hsites]
          · have hmodify := Kind.prolog.modify_eq y hin
            have hcount : countKind .prolog ((.prolog, i) :: sites) =
                countKind .prolog sites + 1 := by simp [countKind]
            have hother : countKind .epilog ((.prolog, i) :: sites) =
                countKind .epilog sites := by simp [countKind]
            have hsum : proCnt + (countKind .prolog sites + 1) =
                proCnt + 1 + countKind .prolog sites := by omega
            rw [if_pos hpro, Kind.length_pattern, hcount, hother, hsum]
            exact (congrArg (· >>= _) hmodify).trans hrun
        · rw [if_neg hpro, if_neg hpro]
          by_cases hepi : isMatching b i (Kind.epilog.pattern x) = true
          · have hin := Kind.le_of_isMatching hepi
            have hbase := Kind.epilog.length_base
            obtain ⟨b', sites, hsites, hrun, hpatches⟩ := ih (i + Kind.epilog.base.length)
              proCnt (epiCnt + 1) (writeAll b i (Kind.epilog.fields y))
              ((length_writeAll _ _ _).trans hlength) (by omega) (by omega)
            refine ⟨b', (.epilog, i) :: sites, ?_, ?_,
              hpatches.hit y ((isMatching_iff _ _ _).mp hepi)⟩
            · rw [if_pos hepi, Kind.length_pattern, hsites]
            · have hmodify := Kind.epilog.modify_eq y hin
              have hcount : countKind .epilog ((.epilog, i) :: sites) =
                  countKind .epilog sites + 1 := by simp [countKind]
              have hother : countKind .prolog ((.epilog, i) :: sites) =
                  countKind .prolog sites := by simp [countKind]
              have hsum : epiCnt + (countKind .epilog sites + 1) =
                  epiCnt + 1 + countKind .epilog sites := by omega
              rw [if_pos hepi, Kind.length_pattern, hcount, hother, hsum]
              exact (congrArg (· >>= _) hmodify).trans hrun
          · rw [if_neg hepi, if_neg hepi]
            obtain ⟨b', sites, hsites, hrun, hpatches⟩ :=
              ih (i + 1) proCnt epiCnt b hlength (by omega) (by omega)
            exact ⟨b', sites, hsites, hrun, fun k hk => hpatches.before k (by omega),
              hpatches.patched⟩
      · rw [if_neg hroom, if_neg hroom]
        exact ⟨b, [], rfl, rfl, fun _ _ => rfl, fun _ _ hmem => absurd hmem List.not_mem_nil⟩

end Scan

/-- **A run**, for any two sizes: it ends, its pair counts the sites, and at every site stands
the pattern of the new size. -/
theorem rewriteImage_sites (b : List Byte) (x y : Int) :
    ∃ b', rewriteImage b x y = some (b', countKind .prolog (patchSites b x y),
        countKind .epilog (patchSites b x y)) ∧
      ∀ q j, (q, j) ∈ patchSites b x y → OccursAt b' j (q.pattern y) := by
  obtain ⟨b', sites, hsites, hrun, hpatches⟩ := modifyLoop_sites (x := x) y (b.length + 1) 0 0 0 b
    rfl (Nat.zero_le _) (by omega)
  rw [patchSites, ← hsites]
  refine ⟨b', ?_, hpatches.patched⟩
  have hpro : modifyPrologBytes prologPattern 0 x = some (Kind.prolog.pattern x) :=
    Kind.modify_base .prolog x
  have hepi : modifyEpilogBytes epilogPattern 0 x = some (Kind.epilog.pattern x) :=
    Kind.modify_base .epilog x
  rw [Nat.zero_add, Nat.zero_add] at hrun
  rw [rewriteImage, hpro, hepi]
  simpa only [Option.bind_eq_bind, Option.bind_some, modifyAllPrologsAndEpilogs] using hrun

end FlashStack.Rewriter
