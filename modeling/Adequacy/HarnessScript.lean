namespace Adequacy

/-- The lines of the program that `node` runs. It answers requests that come one a line. -/
def harnessLines : List String :=
  ["import \x7b createInterface \x7d from 'node:readline';",
   "import \x7b Console \x7d from 'node:console';",
   "import \x7b stdin, stdout, stderr \x7d from 'node:process';",
   "",
   "// stdout carries the protocol; program output goes to stderr.",
   "const protocolWrite = stdout.write.bind(stdout);",
   "stdout.write = (chunk, ...rest) => stderr.write(chunk, ...rest);",
   "globalThis.console = new Console(\x7b stdout: stderr, stderr \x7d);",
   "",
   "const sink = \x7b func: new Set(), stmt: new Set(), branch: new Set() \x7d;",
   "let entry = null;",
   "",
   "const reply = (message) => protocolWrite(JSON.stringify(message) + '\\n');",
   "const describe = (err) => (err && err.message ? err.message : String(err));",
   "",
   "reply(\x7b ready: true \x7d);",
   "",
   "const rl = createInterface(\x7b input: stdin, crlfDelay: Infinity \x7d);",
   "",
   "for await (const line of rl) \x7b",
   "  if (!line.trim()) continue;",
   "",
   "  let req;",
   "  try \x7b",
   "    req = JSON.parse(line);",
   "  \x7d catch (err) \x7b",
   "    reply(\x7b id: null, error: \x60invalid json: $\x7bdescribe(err)\x7d\x60 \x7d);",
   "    continue;",
   "  \x7d",
   "",
   "  const id = req.id;",
   "",
   "  if (req.kind === 'compile') \x7b",
   "    let orig;",
   "    try \x7b",
   "      orig = new Function('__cov__', 'const orig = ' + req.program + '\\n;\\nreturn orig;')(sink);",
   "    \x7d catch (err) \x7b",
   "      reply(\x7b id, notRunnable: describe(err) \x7d);",
   "      continue;",
   "    \x7d",
   "    if (typeof orig !== 'function') \x7b",
   "      reply(\x7b id, notRunnable: \x60expected a function, got $\x7btypeof orig\x7d\x60 \x7d);",
   "      continue;",
   "    \x7d",
   "    entry = orig;",
   "    reply(\x7b id \x7d);",
   "  \x7d else if (req.kind === 'invoke') \x7b",
   "    if (entry === null) \x7b",
   "      reply(\x7b id, error: 'no program compiled' \x7d);",
   "      continue;",
   "    \x7d",
   "    sink.func.clear();",
   "    sink.stmt.clear();",
   "    sink.branch.clear();",
   "    let threw = null;",
   "    try \x7b",
   "      entry(...(req.args || []));",
   "    \x7d catch (err) \x7b",
   "      threw = describe(err);",
   "    \x7d",
   "    reply(\x7b id, func: [...sink.func], stmt: [...sink.stmt], branch: [...sink.branch], threw \x7d);",
   "  \x7d else \x7b",
   "    reply(\x7b id, error: \x60unknown request kind: $\x7breq.kind\x7d\x60 \x7d);",
   "  \x7d",
   "\x7d"]

def harnessScript : String := String.join (harnessLines.map (· ++ "\n"))

end Adequacy
