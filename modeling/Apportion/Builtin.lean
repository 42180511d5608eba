/-!
The modules that the runtime itself provides, and the mark that a specifier of one carries.
-/
namespace Apportion.Builtin

/-- Module names that need no installation. -/
def names : List String :=
  ["assert", "async_hooks", "buffer", "child_process", "cluster", "console", "constants", "crypto",
   "dgram", "diagnostics_channel", "dns", "domain", "events", "fs", "http", "http2", "https",
   "inspector", "module", "net", "os", "path", "perf_hooks", "process", "punycode", "querystring",
   "readline", "repl", "stream", "string_decoder", "sys", "timers", "tls", "trace_events", "tty",
   "url", "util", "v8", "vm", "wasi", "worker_threads", "zlib"]

def isMarked (mark specifier : String) : Bool := mark.toList.isPrefixOf specifier.toList

def unmarked (mark specifier : String) : List Char :=
  if isMarked mark specifier then specifier.toList.drop mark.toList.length else specifier.toList

/-- Whether a specifier names a builtin, or a part of one behind a slash. -/
def isBuiltin (mark specifier : String) : Bool :=
  names.contains (String.ofList ((unmarked mark specifier).takeWhile (· ≠ '/')))

end Apportion.Builtin
