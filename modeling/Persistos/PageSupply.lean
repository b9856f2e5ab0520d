import Persistos.Word

/-! The pages that `kpage_alloc(1)` hands to clients that never give them
back, in the order of the calls. Whatever the rest of the kernel allocates and
frees in between, such pages are aligned and no two of them are equal. -/

namespace Persistos

structure PageSupply where
  pages : List U64
  aligned : ∀ p ∈ pages, PageAligned p
  nodup : pages.Nodup

namespace PageSupply

def alloc : PageSupply → Except Crash (U64 × PageSupply)
  | ⟨[], _, _⟩ => .error (.panic "Out of physical memory\n")
  | ⟨p :: pages, aligned, nodup⟩ =>
    .ok (p, ⟨pages, fun q hq => aligned q (List.mem_cons_of_mem p hq),
      (List.nodup_cons.mp nodup).2⟩)

theorem alloc_ok {s t : PageSupply} {p : U64} (h : s.alloc = .ok (p, t)) :
    s.pages = p :: t.pages ∧ PageAligned p ∧ p ∉ t.pages := by
  obtain ⟨pages, aligned, nodup⟩ := s
  cases pages with
  | nil => simp [alloc] at h
  | cons q pages =>
    simp only [alloc, Except.ok.injEq, Prod.mk.injEq] at h
    obtain ⟨rfl, rfl⟩ := h
    exact ⟨rfl, aligned q List.mem_cons_self, (List.nodup_cons.mp nodup).1⟩

theorem alloc_error {s : PageSupply} {e : Crash} (h : s.alloc = .error e) :
    s.pages = [] ∧ e = .panic "Out of physical memory\n" := by
  obtain ⟨pages, aligned, nodup⟩ := s
  cases pages with
  | nil => simpa [alloc, eq_comm] using h
  | cons q pages => simp [alloc] at h

end PageSupply

end Persistos
