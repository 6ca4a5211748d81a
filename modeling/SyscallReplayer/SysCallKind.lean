namespace SyscallReplayer

/-- The system calls that have a replaying module, in the order in which the
replayer creates the modules. -/
inductive SysCallKind
  | open_ | openat | close | read | write | lseek | pread | mmappread | access
  | faccessat | chdir | fchdir | chroot | truncate | creat | link | linkat
  | unlink | unlinkat | symlink | rmdir | mkdir | mkdirat | stat | statfs
  | fstatfs | pwrite | mmappwrite | readlink | utime | chmod | fchmod
  | fchmodat | chown | readv | writev | lstat | fstat | fstatat | utimes
  | utimensat | rename | fsync | fdatasync | fallocate | readahead | mknod
  | pipe | dup | dup2 | dup3 | fcntl | exit | execve | mmap | munmap
  | getdents | ioctl | clone | vfork | umask | setxattr | lsetxattr
  | fsetxattr | ftruncate | socket | socketpair | epoll_create | accept
  | accept4
deriving DecidableEq, Repr

end SyscallReplayer
